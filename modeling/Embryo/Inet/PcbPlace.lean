import Embryo.Inet.Pcb

namespace Embryo.Inet

open Embryo.Machine

variable {N : Net} {T T' : Inpcbtable} {live : Finset Nat} {p q : Nat} {f : InPcb → InPcb} {fuel : Nat}
  {stray : Bool} {code : Nat}

/-- Every live pcb is on the queue once, and on the chain of its addresses once and on no other. -/
structure Filed (T : Inpcbtable) (live : Finset Nat) : Prop where
  queue : ∀ p, T.pcbqueue.count p = if p ∈ live then 1 else 0
  chains : T.pcbhashtbl.Filed live T.index

structure Adrift (T : Inpcbtable) (live : Finset Nat) (p : Nat) : Prop where
  queue : ∀ p, T.pcbqueue.count p = if p ∈ live then 1 else 0
  chains : T.pcbhashtbl.Loose live T.index p

theorem modify_pcb (T : Inpcbtable) (p : Nat) (f : InPcb → InPcb) : (T.modify p f).pcb p = f (T.pcb p) :=
  Function.update_self p _ _

theorem modify_index (T : Inpcbtable) (f : InPcb → InPcb) (different : q ≠ p) :
    (T.modify p f).index q = T.index q := by
  unfold Inpcbtable.index
  rw [show (T.modify p f).pcb q = T.pcb q from Function.update_of_ne different _ _]
  rfl

theorem Filed.modify (filed : Filed T live) (p : Nat) (f : InPcb → InPcb) : Adrift (T.modify p f) live p :=
  ⟨filed.queue, filed.chains.loosen (fun _ different => modify_index T f different)⟩

theorem Adrift.modify (adrift : Adrift T live p) (f : InPcb → InPcb) : Adrift (T.modify p f) live p :=
  ⟨adrift.queue, adrift.chains.rekey (fun _ different => modify_index T f different)⟩

theorem Filed.keep (filed : Filed T live) (same : (T.modify p f).index p = T.index p) :
    Filed (T.modify p f) live := by
  have index : (T.modify p f).index = T.index := by
    funext q
    by_cases here : q = p
    · rw [here, same]
    · exact modify_index T f here
  refine ⟨filed.queue, ?_⟩
  rw [index]
  exact filed.chains

theorem Adrift.rehash (adrift : Adrift T live p) (member : p ∈ live) : Filed (T.rehash p) live :=
  ⟨adrift.queue, adrift.chains.refile member⟩

theorem Filed.hashlookup (filed : Filed T live) (faddr : UInt32) (fport : UInt16) (laddr : UInt32)
    (lport : UInt16) : Filed (inpcbHashlookup T faddr fport laddr lport).2 live := by
  unfold inpcbHashlookup
  dsimp only
  split
  · exact filed
  · rename_i found
    exact ⟨filed.queue, filed.chains.promote (List.mem_of_find?_eq_some found)⟩

theorem hashlookup_none {faddr laddr : UInt32} {fport lport : UInt16}
    (none : (inpcbHashlookup T faddr fport laddr lport).1 = Option.none) :
    (inpcbHashlookup T faddr fport laddr lport) = (Option.none, T) := by
  unfold inpcbHashlookup at none ⊢
  dsimp only at none ⊢
  split at none
  · rfl
  · cases none

theorem Filed.connectTo (filed : Filed T live) (member : p ∈ live) (faddr : UInt32) (fport : UInt16)
    (laddr : UInt32) (lport : UInt16) : Filed (connectTo T p faddr fport laddr lport).2 live := by
  have looked := filed.hashlookup faddr fport laddr lport
  unfold Inet.connectTo
  split
  · rename_i found
    rw [found] at looked
    exact looked
  · rename_i missing
    rw [missing] at looked
    exact (looked.modify p _).rehash member

theorem Adrift.connectTo {faddr laddr : UInt32} {fport lport : UInt16} (adrift : Adrift T live p)
    (member : p ∈ live) (none : (inpcbHashlookup T faddr fport laddr lport).1 = Option.none) :
    Filed (connectTo T p faddr fport laddr lport).2 live := by
  unfold Inet.connectTo
  rw [hashlookup_none none]
  exact (adrift.modify _).rehash member

theorem Filed.alloc {options : SoOptions} (filed : Filed T live) (fresh : p ∉ live) (nonzero : p ≠ 0) :
    Filed (allocInpcb T p options).2 (insert p live) := by
  unfold allocInpcb
  rw [if_neg nonzero]
  constructor
  · intro q
    show (p :: T.pcbqueue).count q = _
    have queue := filed.queue q
    by_cases same : q = p
    · subst same
      rw [if_neg fresh] at queue
      simp [queue]
    · rw [List.count_cons_of_ne (Ne.symm same), queue]
      simp [same]
  · exact filed.chains.insert fresh (fun _ different => modify_index T _ different)

theorem Filed.free (filed : Filed T live) : Filed (freeInpcb T p) (live.erase p) := by
  constructor
  · intro q
    show (T.pcbqueue.erase p).count q = _
    have queue := filed.queue q
    by_cases same : q = p
    · subst same
      rw [List.count_erase_self, queue]
      split <;> simp
    · rw [List.count_erase_of_ne same, queue]
      simp [same]
  · exact filed.chains.erase

theorem Filed.disconnect (filed : Filed T live) (member : p ∈ live) : Filed (inpcbDisconnect T p) live :=
  (filed.modify p _).rehash member

theorem Filed.bindPort {laddr : UInt32} {wildcard : Bool} {lport : UInt16} (filed : Filed T live)
    (member : p ∈ live) (unbound : (T.pcb p).laddr = inaddrAny)
    (bound : bindPort fuel (T.modify p (fun c => { c with laddr := laddr })) p wildcard lport =
      some (code, T')) : Filed T' live ∧ T'.hashmask = T.hashmask := by
  have adrift := filed.modify p (fun c => { c with laddr := laddr })
  unfold Inet.bindPort at bound
  split at bound
  · cases bound
    exact ⟨(adrift.modify _).rehash member, rfl⟩
  · split at bound
    · cases bound
    · split at bound
      · cases bound
        have back : (T.modify p (fun c => { c with laddr := laddr })).modify p
            (fun c => { c with laddr := inaddrAny }) = T.modify p (fun c =>
                { c with laddr := inaddrAny }) := by
          simp only [Inpcbtable.modify, Function.update_self, Function.update_idem]
        rw [back]
        refine ⟨filed.keep ?_, rfl⟩
        simp only [Inpcbtable.index, modify_pcb, unbound]
        rfl
      · rename_i port last _ _
        cases bound
        have moved : Adrift { T.modify p (fun c => { c with laddr := laddr }) with
            lastport := port } live p :=
          ⟨adrift.queue, adrift.chains⟩
        exact ⟨(moved.modify _).rehash member, rfl⟩

theorem refused_or {c : Prop} [Decidable c] {e : Nat} {rest : Option (Nat × Inpcbtable)}
    (bound : (if c then some (e, T) else rest) = some (code, T')) :
    T' = T ∨ ¬ c ∧ rest = some (code, T') := by
  split at bound
  · cases bound
    exact .inl rfl
  · next passed => exact .inr ⟨passed, bound⟩

theorem Filed.bind {addr : Option SockaddrIn} (filed : Filed T live) (member : p ∈ live)
    (bound : inpcbBind N fuel T p addr stray = some (code, T')) :
    Filed T' live ∧ T'.hashmask = T.hashmask := by
  have same : T' = T → Filed T' live ∧ T'.hashmask = T.hashmask := by
    rintro rfl
    exact ⟨filed, rfl⟩
  unfold inpcbBind at bound
  rcases refused_or bound with kept | ⟨_, bound⟩
  · exact same kept
  rcases refused_or bound with kept | ⟨free, bound⟩
  · exact same kept
  have unbound : (T.pcb p).laddr = inaddrAny := by
    by_contra other
    exact free (.inl other)
  cases addr with
  | none =>
    have still : T.modify p (fun c => { c with laddr := inaddrAny }) = T := by
      have pcb : ({ T.pcb p with laddr := inaddrAny } : InPcb) = T.pcb p := by rw [← unbound]
      simp only [Inpcbtable.modify, pcb, Function.update_eq_self]
    rw [← still] at bound
    exact filed.bindPort member unbound bound
  | some laddr =>
    rcases refused_or bound with kept | ⟨_, bound⟩
    · exact same kept
    rcases refused_or bound with kept | ⟨_, bound⟩
    · exact same kept
    rcases refused_or bound with kept | ⟨_, bound⟩
    · exact same kept
    rcases refused_or bound with kept | ⟨_, bound⟩
    · exact same kept
    rcases refused_or bound with kept | ⟨_, bound⟩
    · exact same kept
    rcases refused_or bound with kept | ⟨_, bound⟩
    · exact same kept
    exact filed.bindPort member unbound bound

/-- Where `inpcb_connect` has to find a port itself, the pair it asks for is free, or the chain is the
    same without the port, which is taken back for as long as the question is open. -/
def Unclashed (N : Net) (fuel : Nat) (T : Inpcbtable) (p : Nat) (sin : SockaddrIn) (stray : Bool) : Prop :=
  ∀ primary rest, N.ifaddrlist = primary :: rest → (T.pcb p).laddr = inaddrAny → (T.pcb p).lport = 0 →
    let faddr := foreignAddr primary sin.addr
    let found := localAddr N primary (T.pcb p) faddr
    ∀ T₁, inpcbBind N fuel (T.modify p (fun c => { c with ro := found.1 })) p none stray = some (0, T₁) →
      let T₂ := T₁.modify p (fun c => { c with lport := 0 })
      (inpcbHashlookup T₂ faddr sin.port found.2 (T₁.pcb p).lport).1 = none ∨ T₂.index p = T₁.index p

theorem hashlookup_hashmask (T : Inpcbtable) (faddr : UInt32) (fport : UInt16) (laddr : UInt32)
    (lport : UInt16) : (inpcbHashlookup T faddr fport laddr lport).2.hashmask = T.hashmask := by
  unfold inpcbHashlookup
  dsimp only
  split <;> rfl

theorem connectTo_hashmask (T : Inpcbtable) (p : Nat) (faddr : UInt32) (fport : UInt16) (laddr : UInt32)
    (lport : UInt16) : (connectTo T p faddr fport laddr lport).2.hashmask = T.hashmask := by
  have looked := hashlookup_hashmask T faddr fport laddr lport
  unfold connectTo
  split
  · rename_i found
    rw [found] at looked
    exact looked
  · rename_i missing
    rw [missing] at looked
    exact looked

theorem connectTo_pcb {faddr laddr : UInt32} {fport lport : UInt16}
    (connected : connectTo T p faddr fport laddr lport = (0, T')) : (T'.pcb p).laddr = laddr := by
  unfold connectTo at connected
  split at connected
  · cases connected
  · cases connected
    simp only [Inpcbtable.rehash, modify_pcb]

theorem table_of_some {result : Nat × Inpcbtable} (given : some result = some (code, T')) :
    T' = result.2 := by
  cases given
  rfl

theorem Filed.connect {sin : SockaddrIn} (filed : Filed T live) (member : p ∈ live)
    (clear : Unclashed N fuel T p sin stray)
    (connected : inpcbConnect N fuel T p (some sin) stray = some (code, T')) :
    Filed T' live ∧ T'.hashmask = T.hashmask := by
  unfold inpcbConnect at connected
  dsimp only at connected
  split at connected
  · cases connected
    exact ⟨filed, rfl⟩
  · split at connected
    · cases connected
      exact ⟨filed, rfl⟩
    · split at connected
      · cases connected
        exact ⟨filed, rfl⟩
      · split at connected
        · cases connected
          exact ⟨filed, rfl⟩
        · rename_i primary rest list
          split at connected
          · rw [table_of_some connected]
            exact ⟨filed.connectTo member _ _ _ _, connectTo_hashmask _ _ _ _ _ _⟩
          · rename_i unbound
            have any : (T.pcb p).laddr = inaddrAny := not_not.mp unbound
            have routed : Filed (T.modify p (fun c => { c with
                ro := (localAddr N primary (T.pcb p) (foreignAddr primary sin.addr)).1 })) live := by
              apply filed.keep
              simp only [Inpcbtable.index, modify_pcb]
              rfl
            split at connected
            · rw [table_of_some connected]
              exact ⟨routed.connectTo member _ _ _ _, connectTo_hashmask _ _ _ _ _ _⟩
            · rename_i portless
              split at connected
              · cases connected
              · rename_i T₁ bound
                obtain ⟨filed₁, mask₁⟩ := routed.bind member bound
                rw [table_of_some connected]
                refine ⟨?_, (connectTo_hashmask _ _ _ _ _ _).trans mask₁⟩
                rcases clear primary rest list any (not_not.mp portless) T₁ bound with none | same
                · exact (filed₁.modify p _).connectTo member none
                · exact (filed₁.keep same).connectTo member _ _ _ _
              · rename_i T₁ _ bound
                cases connected
                exact routed.bind member bound

def Regular (mask : UInt32) : Prop := ∃ k, k < 32 ∧ mask.toNat = 2^k - 1

theorem inpcbhash_any {mask laddr : UInt32} (regular : Regular mask) (clear : ntohl laddr &&& mask = 0)
    (faddr : UInt32) (fport lport : UInt16) :
    inpcbhash mask faddr fport laddr lport = inpcbhash mask faddr fport inaddrAny lport := by
  obtain ⟨k, below, size⟩ := regular
  have whole : 2^k ∣ 2^32 := Nat.pow_dvd_pow 2 (Nat.le_of_lt below)
  have any : ntohl inaddrAny = 0 := by decide
  have masked : ∀ x : UInt32, (x &&& mask).toNat = x.toNat % 2^k := by
    intro x
    rw [UInt32.toNat_and, size, Nat.and_two_pow_sub_one_eq_mod]
  have none : (ntohl laddr).toNat % 2^k = 0 := by
    rw [← masked, clear]
    rfl
  have wrapped : ∀ x, x % 2^32 ≡ x [MOD 2^k] := fun x => (Nat.mod_modEq x (2^32)).of_dvd whole
  apply UInt32.toNat.inj
  simp only [inpcbhash, masked, any, UInt32.toNat_add]
  apply Nat.ModEq.trans (wrapped _)
  apply Nat.ModEq.trans _ (wrapped _).symm
  apply Nat.ModEq.add_right
  apply Nat.ModEq.trans (wrapped _)
  apply Nat.ModEq.trans _ (wrapped _).symm
  exact Nat.ModEq.add_left _ none

/-- The local address `udp_output` takes back after it has sent does not count, or is not taken back. -/
def Restorable (N : Net) (T : Inpcbtable) (p : Nat) (sin : SockaddrIn) : Prop :=
  (T.pcb p).laddr = inaddrAny → ∀ primary rest, N.ifaddrlist = primary :: rest →
    ntohl (localAddr N primary (T.pcb p) (foreignAddr primary sin.addr)).2 &&& T.hashmask = 0

theorem connect_laddr {sin : SockaddrIn}
    (connected : inpcbConnect N fuel T p (some sin) stray = some (0, T')) :
    ∃ primary rest, N.ifaddrlist = primary :: rest ∧
      (T'.pcb p).laddr = if (T.pcb p).laddr ≠ inaddrAny then (T.pcb p).laddr
        else (localAddr N primary (T.pcb p) (foreignAddr primary sin.addr)).2 := by
  unfold inpcbConnect at connected
  dsimp only at connected
  split at connected
  · cases connected
  · split at connected
    · cases connected
    · split at connected
      · cases connected
      · split at connected
        · cases connected
        · rename_i primary rest list
          refine ⟨primary, rest, list, ?_⟩
          split at connected
          · rename_i bound
            rw [if_pos bound]
            exact connectTo_pcb (Option.some.inj connected)
          · rename_i unbound
            rw [if_neg unbound]
            split at connected
            · exact connectTo_pcb (Option.some.inj connected)
            · split at connected
              · cases connected
              · exact connectTo_pcb (Option.some.inj connected)
              · cases connected

theorem Filed.output {sin : SockaddrIn} {send : InPcb → Nat × PcbRoute} (filed : Filed T live)
    (member : p ∈ live) (regular : Regular T.hashmask) (clear : Unclashed N fuel T p sin stray)
    (restorable : Restorable N T p sin)
    (sent : udpOutputPcb N fuel T p (some sin) stray send = some (code, T')) :
    Filed T' live ∧ T'.hashmask = T.hashmask := by
  unfold udpOutputPcb at sent
  dsimp only at sent
  split at sent
  · cases sent
    exact ⟨filed, rfl⟩
  · split at sent
    · cases sent
    · rename_i T₁ connected
      cases sent
      obtain ⟨filed₁, mask⟩ := filed.connect member clear connected
      refine ⟨?_, mask⟩
      have routed : Filed (T₁.modify p (fun c => { c with ro := (send c).2 })) live := by
        apply filed₁.keep
        simp only [Inpcbtable.index, modify_pcb]
        rfl
      apply (routed.disconnect member).keep
      obtain ⟨primary, rest, list, laddr⟩ := connect_laddr connected
      simp only [Inpcbtable.index, modify_pcb, inpcbDisconnect, Inpcbtable.rehash]
      show inpcbhash T₁.hashmask inaddrAny 0 (T.pcb p).laddr (T₁.pcb p).lport =
        inpcbhash T₁.hashmask inaddrAny 0 (T₁.pcb p).laddr (T₁.pcb p).lport
      by_cases any : (T.pcb p).laddr = inaddrAny
      · rw [laddr, if_neg (not_not.mpr any), mask, any]
        exact (inpcbhash_any regular (restorable any primary rest list) _ _ _).symm
      · rw [laddr, if_pos any]
    · rename_i T₁ failed
      cases sent
      exact filed.connect member clear failed

structure Pcbs where
  table : Inpcbtable
  live : Finset Nat

/-- The calls on the pcbs of a table. `kmem_malloc` hands out no block that is in use. Connecting and
    sending meet the conditions above. -/
inductive PcbStep : Pcbs → Pcbs → Prop where
  | alloc {w : Pcbs} {p : Nat} {options : SoOptions} (fresh : p ∉ w.live) :
      PcbStep w ⟨(allocInpcb w.table p options).2, if p = 0 then w.live else insert p w.live⟩
  | free {w : Pcbs} {p : Nat} (member : p ∈ w.live) : PcbStep w ⟨freeInpcb w.table p, w.live.erase p⟩
  | bind {w : Pcbs} {N : Net} {fuel p code : Nat} {addr : Option SockaddrIn} {stray : Bool} {T : Inpcbtable}
      (member : p ∈ w.live) (call : inpcbBind N fuel w.table p addr stray = some (code, T)) :
      PcbStep w ⟨T, w.live⟩
  | connect {w : Pcbs} {N : Net} {fuel p code : Nat} {sin : SockaddrIn} {stray : Bool} {T : Inpcbtable}
      (member : p ∈ w.live) (clear : Unclashed N fuel w.table p sin stray)
      (call : inpcbConnect N fuel w.table p (some sin) stray = some (code, T)) : PcbStep w ⟨T, w.live⟩
  | disconnect {w : Pcbs} {p : Nat} (member : p ∈ w.live) : PcbStep w ⟨inpcbDisconnect w.table p, w.live⟩
  | output {w : Pcbs} {N : Net} {fuel p code : Nat} {sin : SockaddrIn} {stray : Bool}
      {send : InPcb → Nat × PcbRoute} {T : Inpcbtable} (member : p ∈ w.live)
      (clear : Unclashed N fuel w.table p sin stray) (restorable : Restorable N w.table p sin)
      (call : udpOutputPcb N fuel w.table p (some sin) stray send = some (code, T)) : PcbStep w ⟨T, w.live⟩
  | hashlookup {w : Pcbs} (faddr : UInt32) (fport : UInt16) (laddr : UInt32) (lport : UInt16) :
      PcbStep w ⟨(inpcbHashlookup w.table faddr fport laddr lport).2, w.live⟩

theorem PcbStep.filed {w w' : Pcbs} (step : PcbStep w w') (filed : Filed w.table w.live)
    (regular : Regular w.table.hashmask) : Filed w'.table w'.live ∧ Regular w'.table.hashmask := by
  cases step with
  | @alloc p options fresh =>
    by_cases zero : p = 0
    · rw [if_pos zero, allocInpcb, if_pos zero]
      exact ⟨filed, regular⟩
    · rw [if_neg zero]
      refine ⟨filed.alloc fresh zero, ?_⟩
      rw [allocInpcb, if_neg zero]
      exact regular
  | free member => exact ⟨filed.free, regular⟩
  | bind member call =>
    obtain ⟨filed', mask⟩ := filed.bind member call
    exact ⟨filed', mask ▸ regular⟩
  | connect member clear call =>
    obtain ⟨filed', mask⟩ := filed.connect member clear call
    exact ⟨filed', mask ▸ regular⟩
  | disconnect member => exact ⟨filed.disconnect member, regular⟩
  | output member clear restorable call =>
    obtain ⟨filed', mask⟩ := filed.output member regular clear restorable call
    exact ⟨filed', mask ▸ regular⟩
  | hashlookup faddr fport laddr lport =>
    refine ⟨filed.hashlookup faddr fport laddr lport, ?_⟩
    rw [hashlookup_hashmask]
    exact regular

theorem initInpcb_filed (hashsize : Nat) (pcb : Nat → InPcb) (small : hashsize < 2^31) :
    Filed (initInpcb hashsize pcb) ∅ ∧ Regular (initInpcb hashsize pcb).hashmask := by
  refine ⟨⟨fun p => rfl, fun p i => ?_⟩, Nat.log2 hashsize, ?_, ?_⟩
  · simp [initInpcb]
  · by_cases zero : hashsize = 0
    · rw [zero]
      decide
    · have := (Nat.log2_lt zero).mpr small
      omega
  · have bound : 2^Nat.log2 hashsize ≤ 2^31 := by
      apply Nat.pow_le_pow_right (by decide)
      by_cases zero : hashsize = 0
      · rw [zero]
        decide
      · have := (Nat.log2_lt zero).mpr small
        omega
    show (UInt32.ofNat (2^Nat.log2 hashsize - 1)).toNat = _
    rw [UInt32.toNat_ofNat', Nat.mod_eq_of_lt (by omega)]

/-- In every run whose connecting and sending steps meet their conditions, every live pcb is on the
    queue once, and once on the chain of its present addresses and on no other. -/
theorem pcbs_stay_filed {hashsize : Nat} {pcb : Nat → InPcb} {w : Pcbs} (small : hashsize < 2^31)
    (run : Relation.ReflTransGen PcbStep ⟨initInpcb hashsize pcb, ∅⟩ w) {p : Nat} (member : p ∈ w.live) :
    w.table.pcbqueue.count p = 1 ∧
      ∀ i, (w.table.pcbhashtbl i).count p = if i = w.table.index p then 1 else 0 := by
  have kept : Filed w.table w.live ∧ Regular w.table.hashmask := by
    clear member
    induction run with
    | refl => exact initInpcb_filed hashsize pcb small
    | tail _ step ih => exact step.filed ih.1 ih.2
  constructor
  · rw [kept.1.queue p, if_pos member]
  · intro i
    rw [kept.1.chains p i]
    simp [member]

abbrev oneIf : Net where
  ifaddrlist := [⟨htonl 0xc0a80105, htonl 0xc0a801ff, true⟩]
  withaddr := fun a => a == htonl 0xc0a80105
  withdstaddr := fun _ => none
  withnet := fun _ => some (htonl 0xc0a80105)
  rtAlloc := fun _ => none

abbrev noOptions : SoOptions := ⟨false, false, false, false⟩
abbrev emptyTable : Inpcbtable := initInpcb 128 (fun _ => zeroPcb noOptions)
abbrev onePcb : Inpcbtable := (allocInpcb emptyTable 0x8b020000 noOptions).2
abbrev server : SockaddrIn := ⟨16, 2, htons 7000, htonl 0xc0a80109⟩
abbrev boundPcb : Inpcbtable :=
  ((inpcbBind oneIf 1 onePcb 0x8b020000 (some ⟨16, 2, htons 5000, htonl 0xc0a80105⟩) false).getD
    (1, onePcb)).2
abbrev sentBound : Inpcbtable :=
  ((udpOutputPcb oneIf 1 boundPcb 0x8b020000 (some server) false (fun c => (0, c.ro))).getD (1, boundPcb)).2

theorem table_getD {call : Option (Nat × Inpcbtable)} {d : Nat × Inpcbtable} (ended : call.isSome = true) :
    call = some ((call.getD d).1, (call.getD d).2) := by
  cases call with
  | none => cases ended
  | some _ => rfl

theorem bound_pcb_stays_filed :
    sentBound.pcbqueue.count 0x8b020000 = 1 ∧
      ∀ i, (sentBound.pcbhashtbl i).count 0x8b020000 = if i = sentBound.index 0x8b020000 then 1 else 0 := by
  have first : PcbStep ⟨emptyTable, ∅⟩ ⟨onePcb, insert 0x8b020000 ∅⟩ :=
    @PcbStep.alloc ⟨emptyTable, ∅⟩ 0x8b020000 noOptions (by decide)
  have second : PcbStep ⟨onePcb, insert 0x8b020000 ∅⟩ ⟨boundPcb, insert 0x8b020000 ∅⟩ :=
    @PcbStep.bind ⟨onePcb, insert 0x8b020000 ∅⟩ oneIf 1 0x8b020000 _ _ false boundPcb (by decide)
      (table_getD (d := (1, onePcb)) (by decide +kernel))
  have addressed : (boundPcb.pcb 0x8b020000).laddr ≠ inaddrAny := by decide +kernel
  have third : PcbStep ⟨boundPcb, insert 0x8b020000 ∅⟩ ⟨sentBound, insert 0x8b020000 ∅⟩ :=
    @PcbStep.output ⟨boundPcb, insert 0x8b020000 ∅⟩ oneIf 1 0x8b020000 _ server false
      (fun c => (0, c.ro)) sentBound
      (by decide) (fun _ _ _ any => absurd any addressed) (fun any => absurd any addressed)
      (table_getD (d := (1, boundPcb)) (by decide +kernel))
  exact @pcbs_stay_filed 128 _ _ (by decide) (.tail (.tail (.tail .refl first) second) third) _ (by decide)

/-- A first datagram from an unbound socket leaves its pcb on the chain of an address it no longer has. -/
abbrev sentUnbound : Inpcbtable :=
  ((udpOutputPcb oneIf 1 onePcb 0x8b020000 (some server) false (fun c => (0, c.ro))).getD (1, onePcb)).2

theorem unbound_pcb_astray :
    udpOutputPcb oneIf 1 onePcb 0x8b020000 (some server) false (fun c => (0, c.ro)) = some (0, sentUnbound) ∧
      0x8b020000 ∉ sentUnbound.pcbhashtbl (sentUnbound.index 0x8b020000) := by
  have ended : (udpOutputPcb oneIf 1 onePcb 0x8b020000 (some server) false
      (fun c => (0, c.ro))).isSome = true := by
    decide +kernel
  have code : ((udpOutputPcb oneIf 1 onePcb 0x8b020000 (some server) false
      (fun c => (0, c.ro))).getD (1, onePcb)).1 = 0 := by
    decide +kernel
  constructor
  · rw [table_getD (d := (1, onePcb)) ended, code]
  · decide +kernel

end Embryo.Inet
