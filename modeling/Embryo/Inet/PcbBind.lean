import Embryo.Inet.PcbLookup

namespace Embryo.Inet

open Embryo.Machine

def autoFirst (hiport : Bool) : UInt16 := if hiport then ipportHifirstauto else ipportReserved

def autoLast (hiport : Bool) : UInt16 := if hiport then ipportHilastauto else ipportUserreserved

def InPcb.wildcard (inp : InPcb) (stray : Bool) : Bool :=
  if ¬ (inp.options.reuseaddr ∨ inp.options.reuseport ∨ inp.options.acceptconn) then true else stray

/-- Two pcbs may hold a port together: both have asked to, or the one to be bound has asked for
    exact matching. -/
def InPcb.Shares (inp t : InPcb) : Prop :=
  (inp.options.reuseport = true ∧ t.options.reuseport = true) ∨ inp.options.reuseaddr = true

namespace Inpcbtable

variable (T : Inpcbtable) (p : Nat)

def Free (wildcard : Bool) (laddr : UInt32) (port : UInt16) : Prop :=
  ∀ q ∈ T.pcbqueue, ¬ (T.pcb q).Compatible wildcard ⟨0, 0, laddr, htons port⟩

def Clear (laddr : UInt32) (lport : UInt16) : Prop :=
  ∀ q ∈ T.pcbqueue, q ≠ p → (T.pcb q).Compatible true ⟨0, 0, laddr, lport⟩ → (T.pcb p).Shares (T.pcb q)

structure Least (wildcard : Bool) (laddr : UInt32) (first last port : UInt16) : Prop where
  above : first ≤ port
  below : port ≤ last
  free : T.Free wildcard laddr port
  least : ∀ port', first ≤ port' → port' < port → ¬ T.Free wildcard laddr port'

end Inpcbtable

structure Bound (T : Inpcbtable) (p : Nat) (addr : Option SockaddrIn) (inp : InPcb) : Prop where
  nonzero : inp.lport ≠ 0
  allowed : inBadport (ntohs inp.lport) = false
  range : (∀ sin, addr = some sin → sin.port = 0) →
    autoFirst inp.hiport ≤ ntohs inp.lport ∧ ntohs inp.lport ≤ autoLast inp.hiport
  clear : T.Clear p inp.laddr inp.lport

structure BindsWell (N : Net) (T : Inpcbtable) (p : Nat) (addr : Option SockaddrIn)
    (stray : Bool) : Prop where
  ends : ∃ fuel result, inpcbBind N fuel T p addr stray = some result
  bound : ∀ fuel T', inpcbBind N fuel T p addr stray = some (0, T') → Bound T p addr (T'.pcb p)
  failed : ∀ fuel code T', inpcbBind N fuel T p addr stray = some (code, T') → code ≠ 0 →
    (T'.pcb p).laddr = (T.pcb p).laddr ∧ (T'.pcb p).lport = (T.pcb p).lport

def Admitted (N : Net) (laddr : UInt32) (lport : UInt16) : Option SockaddrIn → Prop
  | none => laddr = inaddrAny ∧ lport = 0
  | some sin => sin.len = sizeofSockaddrIn ∧ sin.family = afInet ∧ inMulticast sin.addr = false ∧
      (sin.addr = inaddrAny ∨ N.withaddr sin.addr = true) ∧
        (sin.port = 0 ∨ inBadport (ntohs sin.port) = false) ∧
      laddr = sin.addr ∧ lport = sin.port

variable {N : Net} {T T' : Inpcbtable} {p fuel code : Nat} {addr : Option SockaddrIn} {stray wildcard : Bool}
  {laddr : UInt32} {first last port : UInt16}

def Inpcbtable.Refused (T : Inpcbtable) (p : Nat) (wildcard : Bool) (laddr : UInt32)
    (lport : UInt16) : Prop :=
  ∃ t, Earliest (fun q => (T.pcb q).rank wildcard ⟨0, 0, laddr, lport⟩) T.pcbqueue t ∧
    ¬ ((T.pcb p).options.reuseport = true ∧ (T.pcb t).options.reuseport = true)

/-- The range has a free port where it ends with the counter, and the least free port is allowed and clear. -/
structure Inpcbtable.Roomy (T : Inpcbtable) (p : Nat) (wildcard : Bool) (laddr : UInt32) : Prop where
  room : (T.pcb p).hiport = true → ∃ port, ipportHifirstauto ≤ port ∧ T.Free wildcard laddr port
  least : ∀ port, T.Least wildcard laddr (autoFirst (T.pcb p).hiport) (autoLast (T.pcb p).hiport) port →
    inBadport port = false ∧ T.Clear p laddr (htons port)

/-- A bind that is not turned down at once finds the port it is given clear or refuses it, and has
    room for its own. -/
def Orderly (N : Net) (T : Inpcbtable) (p : Nat) (addr : Option SockaddrIn) (stray : Bool) : Prop :=
  N.ifaddrlist ≠ [] → (T.pcb p).laddr = inaddrAny → (T.pcb p).lport = 0 →
    ∀ laddr lport, Admitted N laddr lport addr →
    (lport ≠ 0 → T.Clear p laddr lport ∨ T.Refused p ((T.pcb p).wildcard stray) laddr lport) ∧
    (lport = 0 → T.Roomy p ((T.pcb p).wildcard stray) laddr)

theorem lookup_none_iff : inpcbLookup T wildcard 0 0 laddr (htons port) = none ↔ T.Free wildcard laddr port :=
  (lookup_best T wildcard ⟨0, 0, laddr, htons port⟩).1

theorem portPass_free (free : T.Free wildcard laddr port) :
    portPass T wildcard laddr last port = some (.leave port) := by
  rw [portPass, if_pos (lookup_none_iff.mpr free)]

theorem portPass_held (held : ¬ T.Free wildcard laddr port) : portPass T wildcard laddr last port =
    if port + 1 ≤ last then some (.again (port + 1)) else some (.leave (port + 1)) := by
  rw [portPass, if_neg (lookup_none_iff.not.mpr held)]

theorem succ_toNat {a b : UInt16} (less : a < b) : (a + 1).toNat = a.toNat + 1 := by
  have bound := b.toNat_lt
  rw [UInt16.lt_iff_toNat_lt] at less
  rw [UInt16.toNat_add, Nat.mod_eq_of_lt]
  · rfl
  · show a.toNat + 1 < 2^16
    omega

theorem search_least (least : T.Least wildcard laddr first last port) :
    ∃ fuel, loop (portPass T wildcard laddr last) fuel first = some port := by
  have found := @loop_variant _ _ (portPass T wildcard laddr last) (fun p => first ≤ p ∧ p ≤ port)
    (fun p => port.toNat - p.toNat) (· = port) (fun p inside => by
      by_cases free : T.Free wildcard laddr p
      · refine .inr ⟨p, portPass_free free, ?_⟩
        by_contra other
        exact least.least p inside.1 (UInt16.lt_of_le_of_ne inside.2 other) free
      · have other : p ≠ port := by
          rintro rfl
          exact free least.free
        have less := UInt16.lt_of_le_of_ne inside.2 other
        have next := succ_toNat less
        have above := inside.1
        have below := least.below
        simp only [UInt16.lt_iff_toNat_lt, UInt16.le_iff_toNat_le] at less above below ⊢
        refine .inl ⟨p + 1, ?_, ⟨by omega, by omega⟩, by omega⟩
        rw [portPass_held free, if_pos]
        rw [UInt16.le_iff_toNat_le]
        omega)
    (port.toNat - first.toNat + 1) first ⟨UInt16.le_refl first, least.above⟩ (Nat.lt_succ_self _)
  obtain ⟨result, left, rfl⟩ := found
  exact ⟨_, left⟩

theorem search_exhausted (held : ∀ port, first ≤ port → port ≤ last → ¬ T.Free wildcard laddr port)
    (start : first ≤ last)
    (top : last < 65535) : ∃ fuel, loop (portPass T wildcard laddr last) fuel first = some (last + 1) := by
  have found := @loop_variant _ _ (portPass T wildcard laddr last) (fun p => first ≤ p ∧ p ≤ last)
    (fun p => last.toNat - p.toNat) (· = last + 1) (fun p inside => by
      rw [portPass_held (held p inside.1 inside.2)]
      by_cases ended : p = last
      · refine .inr ⟨p + 1, ?_, by rw [ended]⟩
        rw [ended, if_neg]
        have next := succ_toNat top
        rw [UInt16.le_iff_toNat_le]
        omega
      · have less := UInt16.lt_of_le_of_ne inside.2 ended
        have next := succ_toNat less
        have above := inside.1
        simp only [UInt16.lt_iff_toNat_lt, UInt16.le_iff_toNat_le] at less above ⊢
        exact .inl ⟨p + 1, if_pos (by omega), ⟨by omega, by omega⟩, by omega⟩)
    (last.toNat - first.toNat + 1) first ⟨UInt16.le_refl first, start⟩ (Nat.lt_succ_self _)
  obtain ⟨result, left, rfl⟩ := found
  exact ⟨_, left⟩

theorem search_wrapped (left : loop (portPass T wildcard laddr 65535) fuel first = some port) :
    T.Free wildcard laddr port := by
  refine loop_invariant (fun _ => True) (T.Free wildcard laddr) (fun _ _ _ _ => True.intro) ?_ left True.intro
  intro start result left _
  by_cases free : T.Free wildcard laddr start
  · rw [portPass_free free] at left
    cases left
    exact free
  · rw [portPass_held free,
      if_pos (UInt16.le_iff_toNat_le.mpr (Nat.le_of_lt_succ (start + 1).toNat_lt))] at left
    cases left

theorem refused_iff {lport : UInt16} : T.Refused p wildcard laddr lport ↔
    (match inpcbLookup T wildcard 0 0 laddr lport with
      | none => false
      | some t => !((T.pcb p).options.reuseport && (T.pcb t).options.reuseport)) = true := by
  constructor
  · rintro ⟨t, first, apart⟩
    have found := (lookup_earliest first).2
    rw [show inpcbLookup T wildcard 0 0 laddr lport = some t from found]
    rwa [Bool.not_eq_true', Bool.eq_false_iff, ne_eq, Bool.and_eq_true]
  · intro inUse
    cases found : inpcbLookup T wildcard 0 0 laddr lport with
    | none =>
      rw [found] at inUse
      cases inUse
    | some t =>
      rw [found] at inUse
      rw [Bool.not_eq_true', Bool.eq_false_iff, ne_eq, Bool.and_eq_true] at inUse
      exact ⟨t, ((lookup_best T wildcard ⟨0, 0, laddr, lport⟩).2 t found).2, inUse⟩

theorem bind_turned_down (not : ¬ (N.ifaddrlist ≠ [] ∧ (T.pcb p).laddr = inaddrAny ∧ (T.pcb p).lport = 0 ∧
    ∃ laddr lport, Admitted N laddr lport addr)) :
    ∃ err, err ≠ 0 ∧ ∀ fuel, inpcbBind N fuel T p addr stray = some (err, T) := by
  by_cases lists : N.ifaddrlist = []
  · exact ⟨eaddrnotavail, by decide, fun fuel => by rw [inpcbBind, if_pos lists]⟩
  · by_cases taken : (T.pcb p).laddr ≠ inaddrAny ∨ (T.pcb p).lport ≠ 0
    · exact ⟨einval, by decide, fun fuel => by
        unfold inpcbBind
        simp only [if_neg lists, if_pos taken]⟩
    · have unbound : (T.pcb p).laddr = inaddrAny := not_not.mp fun other => taken (.inl other)
      have portless : (T.pcb p).lport = 0 := not_not.mp fun other => taken (.inr other)
      cases addr with
      | none => exact absurd ⟨lists, unbound, portless, inaddrAny, 0, rfl, rfl⟩ not
      | some sin =>
        have refused : ¬ Admitted N sin.addr sin.port (some sin) :=
          fun admitted => not ⟨lists, unbound, portless, _, _, admitted⟩
        unfold inpcbBind
        simp only [if_neg lists, if_neg taken]
        by_cases len : sin.len ≠ sizeofSockaddrIn
        · exact ⟨einval, by decide, fun fuel => if_pos len⟩
        · by_cases family : sin.family ≠ afInet
          · exact ⟨eprotonosupport, by decide, fun fuel => by rw [if_neg len, if_pos family]⟩
          · by_cases multicast : inMulticast sin.addr = true
            · exact ⟨eaddrnotavail, by
                decide, fun fuel => by rw [if_neg len, if_neg family, if_pos multicast]⟩
            · by_cases foreign : sin.addr ≠ inaddrAny ∧ ¬ N.withaddr sin.addr = true
              · exact ⟨eaddrnotavail, by decide, fun fuel => by
                  rw [if_neg len, if_neg family, if_neg multicast, if_pos foreign]⟩
              · by_cases bad : sin.port ≠ 0 ∧ inBadport (ntohs sin.port) = true
                · exact ⟨einval, by decide, fun fuel => by
                    rw [if_neg len, if_neg family, if_neg multicast, if_neg foreign, if_pos bad]⟩
                · apply absurd _ refused
                  refine ⟨not_not.mp len, not_not.mp family, Bool.eq_false_iff.mpr multicast, ?_,
                    ?_, rfl, rfl⟩
                  · by_contra neither
                    exact foreign ⟨fun any => neither (.inl any), fun own => neither (.inr own)⟩
                  · by_contra neither
                    exact bad ⟨fun zero => neither (.inl zero), by
                      by_contra good
                      exact neither (.inr (Bool.eq_false_iff.mpr good))⟩

theorem bind_admitted {lport : UInt16} (lists : N.ifaddrlist ≠ []) (unbound : (T.pcb p).laddr = inaddrAny)
    (portless : (T.pcb p).lport = 0) (admitted : Admitted N laddr lport addr) :
    (lport ≠ 0 → T.Refused p ((T.pcb p).wildcard stray) laddr lport →
      inpcbBind N fuel T p addr stray = some (eaddrinuse, T)) ∧
    ((lport ≠ 0 → ¬ T.Refused p ((T.pcb p).wildcard stray) laddr lport) →
      inpcbBind N fuel T p addr stray =
        bindPort fuel (T.modify p (fun c => { c with laddr := laddr })) p ((T.pcb p).wildcard stray)
          lport) := by
  have taken : ¬ ((T.pcb p).laddr ≠ inaddrAny ∨ (T.pcb p).lport ≠ 0) := by
    rintro (other | other)
    · exact other unbound
    · exact other portless
  unfold inpcbBind
  simp only [if_neg lists, if_neg taken]
  cases addr with
  | none =>
    obtain ⟨rfl, rfl⟩ := admitted
    have pcb : ({ T.pcb p with laddr := inaddrAny } : InPcb) = T.pcb p := by rw [← unbound]
    have still : T.modify p (fun c => { c with laddr := inaddrAny }) = T := by
      simp only [Inpcbtable.modify, pcb, Function.update_eq_self]
    refine ⟨fun given => absurd rfl given, fun _ => ?_⟩
    rw [still]
    rfl
  | some sin =>
    obtain ⟨len, family, multicast, near, allowed, rfl, rfl⟩ := admitted
    have foreign : ¬ (sin.addr ≠ inaddrAny ∧ ¬ N.withaddr sin.addr = true) := by
      rintro ⟨other, unknown⟩
      exact near.elim other unknown
    have good : ¬ (sin.port ≠ 0 ∧ inBadport (ntohs sin.port) = true) := by
      rintro ⟨given, bad⟩
      rw [allowed.resolve_left given] at bad
      cases bad
    simp only [if_neg (not_not.mpr len), if_neg (not_not.mpr family), multicast, if_neg foreign, if_neg good]
    constructor
    · intro given refused
      rw [if_neg Bool.false_ne_true, if_pos]
      exact ⟨given, refused_iff.mp refused⟩
    · intro clear
      rw [if_neg Bool.false_ne_true, if_neg fun both => clear both.1 (refused_iff.mpr both.2)]
      rfl

theorem admitted_unique {laddr' : UInt32} {lport lport' : UInt16} (admitted : Admitted N laddr lport addr)
    (admitted' : Admitted N laddr' lport' addr) : laddr' = laddr ∧ lport' = lport := by
  cases addr with
  | none => exact ⟨admitted'.1.trans admitted.1.symm, admitted'.2.trans admitted.2.symm⟩
  | some sin =>
    obtain ⟨_, _, _, _, _, rfl, rfl⟩ := admitted
    obtain ⟨_, _, _, _, _, rfl, rfl⟩ := admitted'
    exact ⟨rfl, rfl⟩

theorem htons_ne_zero (nonzero : port ≠ 0) : htons port ≠ 0 := by
  intro zero
  apply nonzero
  rw [← swap16_swap16 port, show swap16 port = 0 from zero]
  rfl

theorem free_modify {la : UInt32} (portless : (T.pcb p).lport = 0) (nonzero : port ≠ 0) :
    (T.modify p (fun c => { c with laddr := laddr })).Free wildcard la port ↔ T.Free wildcard la port := by
  apply forall₂_congr
  intro q _
  by_cases same : q = p
  · have apart : ∀ inp : InPcb, inp.lport = 0 → ¬ inp.Compatible wildcard ⟨0, 0, la, htons port⟩ :=
      fun inp none compatible => htons_ne_zero nonzero (compatible.lport.symm.trans none)
    rw [same, modify_pcb]
    exact iff_of_true (apart _ portless) (apart _ portless)
  · rw [show (T.modify p (fun c => { c with laddr := laddr })).pcb q =
      T.pcb q from Function.update_of_ne same _ _]

theorem Least.exists {port' : UInt16} (above : first ≤ port') (below : port' ≤ last)
    (free : T.Free wildcard laddr port') :
    ∃ port, T.Least wildcard laddr first last port := by
  induction n : port'.toNat using Nat.strong_induction_on generalizing port' with
  | _ n ih =>
    by_cases lower : ∃ port, first ≤ port ∧ port < port' ∧ T.Free wildcard laddr port
    · obtain ⟨port, above', less, free'⟩ := lower
      exact ih port.toNat (n ▸ UInt16.lt_iff_toNat_lt.mp less) above'
        (UInt16.le_trans (UInt16.le_of_lt less) below) free' rfl
    · exact ⟨port', above, below, free, fun port above' less free' => lower ⟨port, above', less, free'⟩⟩

theorem least_unique {port' : UInt16} (least : T.Least wildcard laddr first last port)
    (least' : T.Least wildcard laddr first last port') : port' = port := by
  by_contra other
  rcases UInt16.lt_or_lt_of_ne other with less | less
  · exact least.least port' least'.above less least'.free
  · exact least'.least port least.above less least.free

/-- The port that a bind finds: the least free one of its range or, where none of the high ports is
    free and the counter comes round to 0, the least free one of all. -/
def Inpcbtable.Next (T : Inpcbtable) (wildcard hiport : Bool) (laddr : UInt32) (port : UInt16) : Prop :=
  T.Least wildcard laddr (autoFirst hiport) (autoLast hiport) port ∨
    (hiport = true ∧ (∀ port', ipportHifirstauto ≤ port' → ¬ T.Free wildcard laddr port') ∧
      T.Least wildcard laddr 0 65535 port)

theorem port_le_top (port : UInt16) : port ≤ 65535 :=
  UInt16.le_iff_toNat_le.mpr (Nat.le_of_lt_succ port.toNat_lt)

theorem search_next {hiport : Bool} (next : T.Next wildcard hiport laddr port) : port ≤ autoLast hiport ∧
    ∃ fuel, loop (portPass T wildcard laddr (autoLast hiport)) fuel (autoFirst hiport) = some port := by
  rcases next with least | ⟨rfl, held, least⟩
  · exact ⟨least.below, search_least least⟩
  refine ⟨port_le_top port, ?_⟩
  have low : port < ipportHifirstauto := UInt16.not_le.mp fun high => held port high least.free
  -- up to the top, and then up to the port
  have found := @loop_variant _ _ (portPass T wildcard laddr 65535)
    (fun p => ipportHifirstauto ≤ p ∨ p ≤ port)
    (fun p => if p ≤ port then port.toNat - p.toNat else port.toNat + 65536 - p.toNat) (· = port)
        (fun p inside => by
      by_cases free : T.Free wildcard laddr p
      · refine .inr ⟨p, portPass_free free, ?_⟩
        have below := inside.resolve_left fun high => held p high free
        by_contra other
        exact least.least p (UInt16.le_iff_toNat_le.mpr (Nat.zero_le _))
          (UInt16.lt_of_le_of_ne below other) free
      · have other : p ≠ port := by
          rintro rfl
          exact free least.free
        refine .inl ⟨p + 1, ?_, ?_⟩
        · rw [portPass_held free, if_pos (port_le_top _)]
        have bound := p.toNat_lt
        have next : (p + 1).toNat = (p.toNat + 1) % 2^16 := UInt16.toNat_add p 1
        have apart : p.toNat ≠ port.toNat := fun same => other (UInt16.toNat_inj.mp same)
        have first : ipportHifirstauto.toNat = 49152 := rfl
        simp only [UInt16.lt_iff_toNat_lt, UInt16.le_iff_toNat_le, next, first] at inside low ⊢
        split <;> split <;> omega)
    65537 (autoFirst true) (.inl (UInt16.le_refl _)) (by
      have start : (autoFirst true).toNat = 49152 := rfl
      have bound := port.toNat_lt
      simp only [UInt16.le_iff_toNat_le]
      split <;> omega)
  obtain ⟨result, left, rfl⟩ := found
  exact ⟨_, left⟩

theorem next_of_search {hiport : Bool}
    (left : loop (portPass T wildcard laddr (autoLast hiport)) fuel (autoFirst hiport) = some port)
    (inside : port ≤ autoLast hiport) : T.Next wildcard hiport laddr port := by
  by_cases some : ∃ c, T.Least wildcard laddr (autoFirst hiport) (autoLast hiport) c
  · obtain ⟨c, least⟩ := some
    obtain ⟨_, found⟩ := search_least least
    rw [loop_unique left found]
    exact .inl least
  have held : ∀ port, autoFirst hiport ≤ port → port ≤ autoLast hiport → ¬ T.Free wildcard laddr port :=
    fun port above below free => some (Least.exists above below free)
  cases hiport with
  | false =>
    obtain ⟨_, found⟩ := search_exhausted held (by decide) (by decide)
    rw [loop_unique left found] at inside
    exact absurd inside (by decide)
  | true =>
    have bottom : (0 : UInt16) ≤ port := UInt16.le_iff_toNat_le.mpr (Nat.zero_le _)
    obtain ⟨c, least⟩ := Least.exists bottom (port_le_top port) (search_wrapped left)
    have next : T.Next wildcard true laddr c :=
      .inr ⟨rfl, fun port above => held port above (port_le_top port), least⟩
    obtain ⟨_, _, found⟩ := search_next next
    rw [loop_unique left found]
    exact next

theorem free_congr (queue : T'.pcbqueue = T.pcbqueue) (tuples : ∀ r, (T'.pcb r).tuple = (T.pcb r).tuple) :
    T'.Free wildcard laddr port ↔ T.Free wildcard laddr port := by
  unfold Inpcbtable.Free
  rw [queue]
  apply forall₂_congr
  intro r _
  have tuple := Tuple.mk.inj (tuples r)
  simp only [InPcb.compatible_iff, InPcb.wildSides, tuple]

theorem next_congr {hiport : Bool} (queue : T'.pcbqueue = T.pcbqueue)
    (tuples : ∀ r, (T'.pcb r).tuple = (T.pcb r).tuple) :
    T'.Next wildcard hiport laddr port ↔ T.Next wildcard hiport laddr port := by
  have free : T'.Free wildcard laddr = T.Free wildcard laddr :=
    funext fun port => propext (free_congr queue tuples)
  have least : ∀ first last, T'.Least wildcard laddr first last port ↔
      T.Least wildcard laddr first last port := by
    intro first last
    constructor
    · exact fun l => ⟨l.above, l.below, free ▸ l.free, free ▸ l.least⟩
    · exact fun l => ⟨l.above, l.below, free ▸ l.free, free ▸ l.least⟩
  rw [Inpcbtable.Next, Inpcbtable.Next, free, least, least]

theorem bindPort_auto (T : Inpcbtable) (p : Nat) (wildcard : Bool) : bindPort fuel T p wildcard 0 =
    match loop (portPass T wildcard (T.pcb p).laddr (autoLast (T.pcb p).hiport)) fuel
      (autoFirst (T.pcb p).hiport) with
    | none => none
    | some port =>
      if port > autoLast (T.pcb p).hiport then some (eaddrnotavail,
        T.modify p (fun c => { c with laddr := inaddrAny }))
      else some (0, ({ T with lastport := port }.modify p (fun c =>
          { c with lport := htons port })).rehash p) := by
  unfold bindPort autoPort autoFirst autoLast
  rw [if_neg (fun other => other rfl)]
  dsimp only
  generalize loop _ fuel _ = result
  cases result <;> rfl

theorem port_entered (T : Inpcbtable) (p : Nat) (laddr : UInt32) (last lport : UInt16) :
    ((({ T.modify p (fun c => { c with laddr := laddr }) with lastport := last }.modify p
      (fun c => { c with lport := lport })).rehash p).pcb p) =
          { T.pcb p with laddr := laddr, lport := lport } := by
  simp only [Inpcbtable.rehash, Inpcbtable.modify, Function.update_self]

theorem autoFirst_le_last (hiport : Bool) : autoFirst hiport ≤ autoLast hiport := by
  cases hiport <;> decide

theorem nonzero_of_first {hiport : Bool} (above : autoFirst hiport ≤ port) : port ≠ 0 := by
  rintro rfl
  revert above
  cases hiport <;> decide

theorem Roomy.of_least {least : UInt16}
    (c : T.Least wildcard laddr (autoFirst (T.pcb p).hiport) (autoLast (T.pcb p).hiport) least) :
    T.Roomy p wildcard laddr ↔ inBadport least = false ∧ T.Clear p laddr (htons least) := by
  constructor
  · exact fun roomy => roomy.least least c
  · intro good
    refine ⟨fun hi => ⟨least, ?_, c.free⟩, ?_⟩
    · have above := c.above
      rwa [hi] at above
    · intro port other
      rw [least_unique c other]
      exact good

theorem bind_auto_iff (unbound : (T.pcb p).laddr = inaddrAny) (portless : (T.pcb p).lport = 0)
    (auto : ∀ sin, addr = some sin → sin.port = 0)
    (call : ∀ fuel, inpcbBind N fuel T p addr stray =
      bindPort fuel (T.modify p (fun c => { c with laddr := laddr })) p wildcard 0) :
    BindsWell N T p addr stray ↔ T.Roomy p wildcard laddr := by
  have pcb := modify_pcb T p (fun c => { c with laddr := laddr })
  have call : ∀ fuel, inpcbBind N fuel T p addr stray = _ := fun fuel =>
    (call fuel).trans (bindPort_auto _ p wildcard)
  simp only [pcb] at call
  have free : ∀ port, autoFirst (T.pcb p).hiport ≤ port →
      ((T.modify p (fun c => { c with laddr := laddr })).Free wildcard laddr port ↔
          T.Free wildcard laddr port) :=
    fun port above => free_modify portless (nonzero_of_first above)
  by_cases some : ∃ port, T.Least wildcard laddr (autoFirst (T.pcb p).hiport) (autoLast (T.pcb p).hiport) port
  · obtain ⟨c, least⟩ := some
    have least' : (T.modify p (fun c => { c with laddr := laddr })).Least wildcard laddr
      (autoFirst (T.pcb p).hiport)
        (autoLast (T.pcb p).hiport) c :=
      ⟨least.above, least.below, (free c least.above).mpr least.free,
        fun port above less => (free port above).not.mpr (least.least port above less)⟩
    obtain ⟨enough, found⟩ := search_least least'
    have only : ∀ fuel code T', inpcbBind N fuel T p addr stray = Option.some (code, T') →
        code = 0 ∧ T'.pcb p = { T.pcb p with laddr := laddr, lport := htons c } := by
      intro fuel code T' done
      rw [call] at done
      split at done
      · cases done
      · rename_i port left
        rw [loop_unique left found, if_neg (UInt16.not_lt.mpr least.below)] at done
        cases done
        exact ⟨rfl, port_entered T p laddr c (htons c)⟩
    rw [Roomy.of_least least]
    constructor
    · intro well
      have done := call enough
      rw [found] at done
      simp only [if_neg (UInt16.not_lt.mpr least.below)] at done
      have bound := well.bound enough _ done
      rw [(only _ _ _ done).2] at bound
      have allowed := bound.allowed
      rw [show ntohs (htons c) = c from swap16_swap16 c] at allowed
      exact ⟨allowed, bound.clear⟩
    · intro good
      refine ⟨⟨enough, ?_⟩, ?_, ?_⟩
      · rw [call, found]
        exact ⟨_, if_neg (UInt16.not_lt.mpr least.below)⟩
      · intro fuel T' done
        rw [(only _ _ _ done).2]
        refine ⟨htons_ne_zero (nonzero_of_first least.above), ?_, fun _ => ?_, good.2⟩
        · rw [show ntohs (htons c) = c from swap16_swap16 c]
          exact good.1
        · rw [show ntohs (htons c) = c from swap16_swap16 c]
          exact ⟨least.above, least.below⟩
      · exact fun fuel code T' done failed => absurd (only _ _ _ done).1 failed
  · have held : ∀ port, autoFirst (T.pcb p).hiport ≤ port → port ≤ autoLast (T.pcb p).hiport →
        ¬ T.Free wildcard laddr port := fun port above below free => some (Least.exists above below free)
    cases hi : (T.pcb p).hiport with
    | false =>
      rw [hi] at call held some
      have exhausted := @search_exhausted (T.modify p (fun c => { c with laddr := laddr })) wildcard laddr
        (autoFirst false) (autoLast false) (fun port above below =>
          (free port (hi ▸ above)).not.mpr (held port above below))
        (autoFirst_le_last false) (by decide)
      obtain ⟨enough, found⟩ := exhausted
      have only : ∀ fuel code T', inpcbBind N fuel T p addr stray = Option.some (code, T') →
          code = eaddrnotavail ∧ T'.pcb p = T.pcb p := by
        intro fuel code T' done
        rw [call] at done
        split at done
        · cases done
        · rename_i port left
          rw [loop_unique left found, if_pos (by decide)] at done
          cases done
          refine ⟨rfl, ?_⟩
          rw [modify_pcb, pcb, ← unbound]
      apply iff_of_true
      · refine ⟨⟨enough, ?_⟩, ?_, ?_⟩
        · rw [call, found]
          exact ⟨_, if_pos (by decide)⟩
        · exact fun fuel T' done => absurd (only _ _ _ done).1 (by decide)
        · intro fuel code T' done _
          rw [(only _ _ _ done).2]
          exact ⟨rfl, rfl⟩
      · refine ⟨fun yes => ?_, fun port least => ?_⟩
        · rw [hi] at yes
          cases yes
        · rw [hi] at least
          exact absurd ⟨port, least⟩ some
    | true =>
      rw [hi] at call held
      have top : ∀ port : UInt16, port ≤ autoLast true := fun port =>
        UInt16.le_iff_toNat_le.mpr (Nat.le_of_lt_succ port.toNat_lt)
      apply iff_of_false
      · intro well
        obtain ⟨fuel, result, done⟩ := well.ends
        rw [call] at done
        split at done
        · cases done
        · rename_i port left
          have ended := call fuel
          rw [left] at ended
          simp only [if_neg (UInt16.not_lt.mpr (top port))] at ended
          have bound := well.bound fuel _ ended
          have range := (bound.range auto).1
          rw [port_entered T p laddr port (htons port), hi] at range
          rw [show ntohs (htons port) = port from swap16_swap16 port] at range
          exact held port range (top port) ((free port (hi ▸ range)).mp (search_wrapped left))
      · intro roomy
        obtain ⟨port, above, ok⟩ := roomy.room hi
        exact held port above (top port) ok

/-- A bind keeps its promises exactly when the port it takes is one it may take. -/
theorem bind_well_iff (N : Net) (T : Inpcbtable) (p : Nat) (addr : Option SockaddrIn) (stray : Bool) :
    BindsWell N T p addr stray ↔ Orderly N T p addr stray := by
  by_cases taken : N.ifaddrlist ≠ [] ∧ (T.pcb p).laddr = inaddrAny ∧ (T.pcb p).lport = 0 ∧
      ∃ laddr lport, Admitted N laddr lport addr
  · obtain ⟨lists, unbound, portless, laddr, lport, admitted⟩ := taken
    have only : Orderly N T p addr stray ↔
        (lport ≠ 0 → T.Clear p laddr lport ∨ T.Refused p ((T.pcb p).wildcard stray) laddr lport) ∧
          (lport = 0 → T.Roomy p ((T.pcb p).wildcard stray) laddr) := by
      constructor
      · exact fun orderly => orderly lists unbound portless laddr lport admitted
      · intro good _ _ _ laddr' lport' admitted'
        obtain ⟨rfl, rfl⟩ := admitted_unique admitted admitted'
        exact good
    rw [only]
    have call := fun fuel => @bind_admitted N T p fuel addr stray laddr lport lists unbound portless admitted
    by_cases auto : lport = 0
    · subst auto
      rw [bind_auto_iff unbound portless ?_ fun fuel => (call fuel).2 fun other => absurd rfl other]
      · exact ⟨fun roomy => ⟨fun other => absurd rfl other, fun _ => roomy⟩, fun both => both.2 rfl⟩
      · rintro sin rfl
        exact admitted.2.2.2.2.2.2.symm
    · rw [and_iff_left fun zero => absurd zero auto]
      by_cases refused : T.Refused p ((T.pcb p).wildcard stray) laddr lport
      · apply iff_of_true _ fun _ => .inr refused
        have done := fun fuel => (call fuel).1 auto refused
        refine ⟨⟨0, _, done 0⟩, ?_, ?_⟩
        · intro fuel T' ended
          rw [done] at ended
          cases ended
        · intro fuel code T' ended _
          rw [done] at ended
          cases ended
          exact ⟨rfl, rfl⟩
      · have done := fun fuel => (call fuel).2 fun _ => refused
        simp only [bindPort, if_pos auto] at done
        have pcb : ((((T.modify p (fun c => { c with laddr := laddr })).modify p
            (fun c => { c with lport := lport })).rehash p).pcb p) =
                { T.pcb p with laddr := laddr, lport := lport } :=
          port_entered T p laddr T.lastport lport
        constructor
        · intro well _
          have bound := well.bound 0 _ (done 0)
          rw [pcb] at bound
          exact .inl bound.clear
        · intro good
          have clear := (good auto).resolve_right refused
          refine ⟨⟨0, _, done 0⟩, ?_, ?_⟩
          · intro fuel T' ended
            rw [done] at ended
            cases ended
            rw [pcb]
            cases addr with
            | none => exact absurd admitted.2 auto
            | some sin =>
              obtain ⟨_, _, _, _, allowed, rfl, rfl⟩ := admitted
              exact ⟨auto, allowed.resolve_left auto, fun none => absurd (none sin rfl) auto, clear⟩
          · intro fuel code T' ended failed
            rw [done] at ended
            cases ended
            exact absurd rfl failed
  · obtain ⟨err, failed, done⟩ := @bind_turned_down N T p addr stray taken
    apply iff_of_true
    · refine ⟨⟨0, _, done 0⟩, ?_, ?_⟩
      · intro fuel T' ended
        rw [done] at ended
        cases ended
        exact absurd rfl failed
      · intro fuel code T' ended _
        rw [done] at ended
        cases ended
        exact ⟨rfl, rfl⟩
    · exact fun lists unbound portless laddr lport admitted =>
        absurd ⟨lists, unbound, portless, laddr, lport, admitted⟩ taken

/-- The first port a pcb is given on its own is a reserved one. -/
theorem first_port_reserved : ¬ BindsWell oneIf onePcb 0x8b020000 none false := by
  intro well
  have bound := well.bound 1 _ (table_getD (d := (1, onePcb)) (by decide +kernel))
  exact absurd bound.allowed (by decide +kernel)

end Embryo.Inet
