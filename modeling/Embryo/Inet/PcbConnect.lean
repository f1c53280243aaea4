import Embryo.Inet.PcbBind

namespace Embryo.Inet

open Embryo.Machine

variable {N : Net} {T T' T₁ : Inpcbtable} {live : Finset Nat} {p fuel code : Nat} {sin : SockaddrIn}
  {addr : Option SockaddrIn} {stray : Bool} {q : Tuple}

structure Accepted (N : Net) (sin : SockaddrIn) (primary : InIfaddr) : Prop where
  len : sin.len = sizeofSockaddrIn
  family : sin.family = afInet
  unicast : inMulticast sin.addr = false
  first : N.ifaddrlist.head? = some primary

/-- The table and the tuple with which `inpcb_connect` arrives at its lookup: the pcb has its
    address, or has its port, or has been bound to a port that is taken back again. -/
inductive Arrives (N : Net) (T : Inpcbtable) (p : Nat) (sin : SockaddrIn) (stray : Bool) (fuel : Nat) :
    Inpcbtable → Tuple → Prop
  | addressed {primary : InIfaddr} (accepted : Accepted N sin primary) (bound : (T.pcb p).laddr ≠ inaddrAny) :
      Arrives N T p sin stray fuel T ⟨foreignAddr primary sin.addr, sin.port, (T.pcb p).laddr,
        (T.pcb p).lport⟩
  | ported {primary : InIfaddr} {ro : PcbRoute} {laddr : UInt32} (accepted : Accepted N sin primary)
      (unbound : (T.pcb p).laddr = inaddrAny) (port : (T.pcb p).lport ≠ 0)
      (routed : localAddr N primary (T.pcb p) (foreignAddr primary sin.addr) = (ro, laddr)) :
      Arrives N T p sin stray fuel (T.modify p (fun c => { c with ro := ro }))
        ⟨foreignAddr primary sin.addr, sin.port, laddr, (T.pcb p).lport⟩
  | bound {primary : InIfaddr} {ro : PcbRoute} {laddr : UInt32} {T₁ : Inpcbtable}
      (accepted : Accepted N sin primary)
      (unbound : (T.pcb p).laddr = inaddrAny) (portless : (T.pcb p).lport = 0)
      (routed : localAddr N primary (T.pcb p) (foreignAddr primary sin.addr) = (ro, laddr))
      (call : inpcbBind N fuel (T.modify p (fun c => { c with ro := ro })) p none stray = some (0, T₁)) :
      Arrives N T p sin stray fuel (T₁.modify p (fun c => { c with lport := 0 }))
        ⟨foreignAddr primary sin.addr, sin.port, laddr, (T₁.pcb p).lport⟩

/-- The tuple that a connect looks up: with the pcb's own address, with that of a route and the
    pcb's own port, or with that of a route and the port that a bind finds. -/
inductive Asked (N : Net) (T : Inpcbtable) (p : Nat) (sin : SockaddrIn) (stray : Bool) : Tuple → Prop
  | addressed {primary : InIfaddr} (accepted : Accepted N sin primary) (bound : (T.pcb p).laddr ≠ inaddrAny) :
      Asked N T p sin stray ⟨foreignAddr primary sin.addr, sin.port, (T.pcb p).laddr, (T.pcb p).lport⟩
  | ported {primary : InIfaddr} (accepted : Accepted N sin primary) (unbound : (T.pcb p).laddr = inaddrAny)
      (port : (T.pcb p).lport ≠ 0) :
      Asked N T p sin stray ⟨foreignAddr primary sin.addr, sin.port,
        (localAddr N primary (T.pcb p) (foreignAddr primary sin.addr)).2, (T.pcb p).lport⟩
  | found {primary : InIfaddr} {port : UInt16} (accepted : Accepted N sin primary)
      (unbound : (T.pcb p).laddr = inaddrAny)
      (portless : (T.pcb p).lport = 0) (next : T.Next ((T.pcb p).wildcard stray)
        (T.pcb p).hiport inaddrAny port) :
      Asked N T p sin stray ⟨foreignAddr primary sin.addr, sin.port,
        (localAddr N primary (T.pcb p) (foreignAddr primary sin.addr)).2, htons port⟩

/-- A connect that fails leaves the pcb as it was and on its chain; one that succeeds leaves it the
    only one of its tuple. -/
structure ConnectsWell (N : Net) (T : Inpcbtable) (live : Finset Nat) (p : Nat)
    (addr : Option SockaddrIn) (stray : Bool) : Prop where
  failed : ∀ fuel code T', inpcbConnect N fuel T p addr stray = some (code, T') → code ≠ 0 →
    (T'.pcb p).tuple = (T.pcb p).tuple ∧ p ∈ T'.pcbhashtbl (T'.index p)
  only : ∀ fuel T', inpcbConnect N fuel T p addr stray = some (0, T') →
    ∀ r ∈ live, r ≠ p → (T'.pcb r).tuple ≠ (T'.pcb p).tuple

def Inpcbtable.Twin (T : Inpcbtable) (q : Tuple) : Prop :=
  ∃ r ∈ T.chain q, hashMatch (T.pcb r) q.faddr q.laddr = true

/-- The chain a pcb is on when the tuple is looked up: `p` has been put on that of the port it is to have. -/
def Inpcbtable.stand (T : Inpcbtable) (p : Nat) (q : Tuple) (r : Nat) : UInt32 :=
  if r = p then inpcbhash T.hashmask (T.pcb p).faddr (T.pcb p).fport (T.pcb p).laddr q.lport else T.index r

/-- Some pcb that stands on the chain of the tuple has its addresses, and two ports that are the same. -/
def Inpcbtable.Twinned (T : Inpcbtable) (live : Finset Nat) (p : Nat) (q : Tuple) : Prop :=
  ∃ r ∈ live, T.stand p q r = inpcbhash T.hashmask q.faddr q.fport q.laddr q.lport ∧
    (T.pcb r).faddr = q.faddr ∧ (T.pcb r).laddr = q.laddr ∧ (T.pcb r).fport = (T.pcb r).lport

/-- Where there is a twin the port asked for selects the chain the pcb has been on, and where
    another pcb has the tuple asked for there is a twin, unless the ports asked for are the same. -/
structure Separable (N : Net) (T : Inpcbtable) (live : Finset Nat) (p : Nat)
    (addr : Option SockaddrIn) (stray : Bool) : Prop where
  home : ∀ sin, addr = some sin → ∀ q, Asked N T p sin stray q → T.Twinned live p q →
    T.stand p q p = T.index p
  seen : ∀ sin, addr = some sin → ∀ q, Asked N T p sin stray q → q.fport ≠ q.lport →
    (∃ r ∈ live, r ≠ p ∧ (T.pcb r).tuple = q) → T.Twinned live p q

theorem hashlookup_none_iff : (inpcbHashlookup T q.faddr q.fport q.laddr q.lport).1 = none ↔ ¬ T.Twin q := by
  rw [hashlookup_find, List.find?_eq_none]
  exact ⟨fun none ⟨r, member, matched⟩ => none r member matched, fun none r member matched =>
    none ⟨r, member, matched⟩⟩

theorem Accepted.list {primary : InIfaddr} (accepted : Accepted N sin primary) :
    ∃ rest, N.ifaddrlist = primary :: rest := by
  have first := accepted.first
  cases list : N.ifaddrlist with
  | nil =>
    rw [list] at first
    cases first
  | cons head rest =>
    rw [list] at first
    cases first
    exact ⟨rest, rfl⟩

theorem connect_of_arrives (arrives : Arrives N T p sin stray fuel T₁ q) :
    inpcbConnect N fuel T p (some sin) stray = some (connectTo T₁ p q.faddr q.fport q.laddr q.lport) := by
  cases arrives with
  | addressed accepted bound =>
    obtain ⟨rest, list⟩ := accepted.list
    unfold inpcbConnect
    simp only [if_neg (not_not.mpr accepted.len), if_neg (not_not.mpr accepted.family),
      accepted.unicast, list]
    rw [if_neg Bool.false_ne_true, if_pos bound]
  | ported accepted unbound port routed =>
    obtain ⟨rest, list⟩ := accepted.list
    unfold inpcbConnect
    simp only [if_neg (not_not.mpr accepted.len), if_neg (not_not.mpr accepted.family),
      accepted.unicast, list]
    rw [if_neg Bool.false_ne_true, if_neg (not_not.mpr unbound), routed]
    exact if_pos port
  | bound accepted unbound portless routed call =>
    obtain ⟨rest, list⟩ := accepted.list
    unfold inpcbConnect
    simp only [if_neg (not_not.mpr accepted.len), if_neg (not_not.mpr accepted.family),
      accepted.unicast, list]
    rw [if_neg Bool.false_ne_true, if_neg (not_not.mpr unbound), routed]
    simp only [if_neg (not_not.mpr portless), call]

theorem bind_alone (bound : inpcbBind N fuel T p none stray = some (code, T')) :
    T'.hashmask = T.hashmask ∧ (∀ r ≠ p, T'.pcb r = T.pcb r) ∧
      (∃ lport, T'.pcb p = { T.pcb p with lport := lport }) ∧
      (code ≠ 0 → T'.pcb p = T.pcb p) := by
  have still : T.pcb p = { T.pcb p with lport := (T.pcb p).lport } := rfl
  by_cases taken : N.ifaddrlist ≠ [] ∧ (T.pcb p).laddr = inaddrAny ∧ (T.pcb p).lport = 0 ∧
      ∃ laddr lport, Admitted N laddr lport none
  · obtain ⟨lists, unbound, portless, laddr, lport, admitted⟩ := taken
    obtain ⟨rfl, rfl⟩ := id admitted
    have call := (@bind_admitted N T p fuel none stray _ _ lists unbound portless admitted).2
      fun other => absurd rfl other
    have any : T.modify p (fun c => { c with laddr := inaddrAny }) = T := by
      have pcb : ({ T.pcb p with laddr := inaddrAny } : InPcb) = T.pcb p := by rw [← unbound]
      simp only [Inpcbtable.modify, pcb, Function.update_eq_self]
    rw [any, bindPort_auto] at call
    rw [call] at bound
    split at bound
    · cases bound
    · split at bound
      · cases bound
        rw [any]
        exact ⟨rfl, fun _ _ => rfl, ⟨_, still⟩, fun _ => rfl⟩
      · rename_i port _ _
        cases bound
        refine ⟨rfl, fun r other => Function.update_of_ne other _ _, ⟨htons port, ?_⟩, fun wrong =>
          absurd rfl wrong⟩
        rw [Inpcbtable.rehash, modify_pcb]
  · obtain ⟨err, failed, done⟩ := @bind_turned_down N T p none stray taken
    rw [done] at bound
    cases bound
    exact ⟨rfl, fun _ _ => rfl, ⟨_, still⟩, fun _ => rfl⟩

theorem Filed.routed (filed : Filed T live) (p : Nat) (ro : PcbRoute) :
    Filed (T.modify p (fun c => { c with ro := ro })) live := by
  apply filed.keep
  simp only [Inpcbtable.index, modify_pcb]
  rfl

theorem stand_index (port : q.lport = (T.pcb p).lport) : T.stand p q = T.index := by
  funext r
  unfold Inpcbtable.stand
  split
  · next same => rw [same, port, Inpcbtable.index]
  · rfl

theorem Arrives.facts (arrives : Arrives N T p sin stray fuel T₁ q) (filed : Filed T live)
    (member : p ∈ live) :
    (∀ r, (T₁.pcb r).tuple = (T.pcb r).tuple) ∧ T₁.hashmask = T.hashmask ∧
      T₁.pcbhashtbl.Filed live (T.stand p q) := by
  have own : ∀ ro r, ((T.modify p (fun c => { c with ro := ro })).pcb r).tuple = (T.pcb r).tuple := by
    intro ro r
    by_cases same : r = p
    · rw [same, modify_pcb]
      rfl
    · rw [show (T.modify p (fun c => { c with ro := ro })).pcb r =
        T.pcb r from Function.update_of_ne same _ _]
  cases arrives with
  | addressed accepted bound =>
    refine ⟨fun _ => rfl, rfl, ?_⟩
    rw [stand_index]
    · exact filed.chains
    · rfl
  | @ported _ ro _ accepted unbound port routed =>
    refine ⟨own ro, rfl, ?_⟩
    rw [stand_index]
    · exact filed.chains
    · rfl
  | @bound primary ro laddr Tb accepted unbound portless routed call =>
    obtain ⟨mask, others, ⟨lport, pcb⟩, _⟩ := bind_alone call
    obtain ⟨filed', _⟩ := (filed.routed p ro).bind member call
    have stands : T.stand p ⟨foreignAddr primary sin.addr, sin.port, laddr, (Tb.pcb p).lport⟩ = Tb.index := by
      funext r
      unfold Inpcbtable.stand Inpcbtable.index
      split
      · next same =>
        rw [same, mask, pcb, modify_pcb]
        rfl
      · next other =>
        rw [others r other, mask, show (T.modify p (fun c => { c with ro := ro })).pcb r =
          T.pcb r from Function.update_of_ne other _ _]
        rfl
    refine ⟨?_, mask, stands ▸ filed'.chains⟩
    intro r
    rw [← own ro r]
    by_cases same : r = p
    · rw [same, modify_pcb, pcb, modify_pcb]
      show (⟨_, _, _, 0⟩ : Tuple) = ⟨_, _, _, (T.pcb p).lport⟩
      rw [portless]
    · rw [show (Tb.modify p (fun c => { c with lport := 0 })).pcb r =
        Tb.pcb r from Function.update_of_ne same _ _, others r same]

theorem bind_next_iff (lists : N.ifaddrlist ≠ []) (unbound : (T.pcb p).laddr = inaddrAny)
    (portless : (T.pcb p).lport = 0) {port : UInt16} :
    (∃ fuel T', inpcbBind N fuel T p none stray = some (0, T') ∧ (T'.pcb p).lport = htons port) ↔
      T.Next ((T.pcb p).wildcard stray) (T.pcb p).hiport inaddrAny port := by
  have call := fun fuel =>
    (@bind_admitted N T p fuel none stray inaddrAny 0 lists unbound portless ⟨rfl, rfl⟩).2
      fun other => absurd rfl other
  have any : T.modify p (fun c => { c with laddr := inaddrAny }) = T := by
    have pcb : ({ T.pcb p with laddr := inaddrAny } : InPcb) = T.pcb p := by rw [← unbound]
    simp only [Inpcbtable.modify, pcb, Function.update_eq_self]
  simp only [any, bindPort_auto, unbound] at call
  constructor
  · rintro ⟨fuel, T', bound, entered⟩
    rw [call] at bound
    split at bound
    · cases bound
    next left =>
    split at bound
    · cases bound
    next inside =>
    cases bound
    rw [Inpcbtable.rehash, modify_pcb] at entered
    rw [← swap16_swap16 port, show swap16 port = htons port from rfl, ← entered]
    exact (swap16_swap16 _).symm ▸ next_of_search left (UInt16.not_lt.mp inside)
  · intro next
    obtain ⟨inside, fuel, left⟩ := search_next next
    have done := call fuel
    rw [left] at done
    simp only [if_neg (UInt16.not_lt.mpr inside)] at done
    refine ⟨fuel, _, done, ?_⟩
    rw [Inpcbtable.rehash, modify_pcb]

theorem arrives_iff : (∃ fuel T₁, Arrives N T p sin stray fuel T₁ q) ↔ Asked N T p sin stray q := by
  have routed : ∀ ro, (T.modify p (fun c => { c with ro := ro })).pcb p =
    { T.pcb p with ro := ro } := fun ro => modify_pcb T p _
  have next : ∀ ro port, (T.modify p (fun c => { c with ro := ro })).Next ((T.pcb p).wildcard stray)
    (T.pcb p).hiport inaddrAny port ↔
      T.Next ((T.pcb p).wildcard stray) (T.pcb p).hiport inaddrAny port := by
    intro ro port
    refine next_congr rfl fun r => ?_
    by_cases same : r = p
    · rw [same, routed]
      rfl
    · rw [show (T.modify p (fun c => { c with ro := ro })).pcb r =
        T.pcb r from Function.update_of_ne same _ _]
  constructor
  · rintro ⟨fuel, T₁, arrives⟩
    cases arrives with
    | addressed accepted bound => exact .addressed accepted bound
    | ported accepted unbound port route =>
      have asked : Asked N T p sin stray _ := .ported accepted unbound port
      rwa [route] at asked
    | @bound primary ro laddr Tb accepted unbound portless route call =>
      have lists : N.ifaddrlist ≠ [] := by
        obtain ⟨rest, list⟩ := accepted.list
        rw [list]
        exact List.cons_ne_nil _ _
      have bound : ∃ fuel T', inpcbBind N fuel (T.modify p (fun c => { c with ro := ro }))
        p none stray = some (0, T') ∧
          (T'.pcb p).lport = htons (ntohs (Tb.pcb p).lport) := ⟨fuel, Tb, call, (swap16_swap16 _).symm⟩
      have port := (bind_next_iff lists (by rw [routed]; exact unbound)
        (by rw [routed]; exact portless)).mp bound
      rw [routed] at port
      have asked := Asked.found accepted unbound portless ((next ro _).mp port)
      rw [route, show htons (ntohs (Tb.pcb p).lport) = (Tb.pcb p).lport from swap16_swap16 _] at asked
      exact asked
  · intro asked
    cases asked with
    | addressed accepted bound => exact ⟨0, T, .addressed accepted bound⟩
    | ported accepted unbound port => exact ⟨0, _, .ported accepted unbound port rfl⟩
    | @found primary port accepted unbound portless free =>
      have lists : N.ifaddrlist ≠ [] := by
        obtain ⟨rest, list⟩ := accepted.list
        rw [list]
        exact List.cons_ne_nil _ _
      let ro := (localAddr N primary (T.pcb p) (foreignAddr primary sin.addr)).1
      have found := (next ro port).mpr free
      obtain ⟨fuel, Tb, call, entered⟩ :=
        (bind_next_iff lists (by rw [routed ro]; exact unbound)
          (by rw [routed ro]; exact portless)).mpr (by rw [routed ro]; exact found)
      rw [← entered]
      exact ⟨fuel, _, .bound accepted unbound portless rfl call⟩

theorem Arrives.twin_iff (arrives : Arrives N T p sin stray fuel T₁ q) (filed : Filed T live)
    (member : p ∈ live) :
    T₁.Twin q ↔ T.Twinned live p q := by
  obtain ⟨tuples, mask, chains⟩ := arrives.facts filed member
  have matched : ∀ r, hashMatch (T₁.pcb r) q.faddr q.laddr = true ↔
      (T.pcb r).faddr = q.faddr ∧ (T.pcb r).laddr = q.laddr ∧ (T.pcb r).fport = (T.pcb r).lport := by
    intro r
    obtain ⟨faddr, fport, laddr, lport⟩ := Tuple.mk.inj (tuples r)
    rw [hashMatch, faddr, fport, laddr, lport]
    simp only [beq_self_eq_true, Bool.and_true, Bool.and_eq_true, beq_iff_eq]
    tauto
  constructor
  · rintro ⟨r, there, same⟩
    obtain ⟨alive, key⟩ := Chains.found_key (chains r _) there
    exact ⟨r, alive, by rw [← key, mask], (matched r).mp same⟩
  · rintro ⟨r, alive, key, same⟩
    have once := chains r (inpcbhash T₁.hashmask q.faddr q.fport q.laddr q.lport)
    rw [mask, if_pos ⟨alive, key.symm⟩, ← mask] at once
    exact ⟨r, List.count_pos_iff.mp (once ▸ Nat.one_pos), (matched r).mpr same⟩

theorem Arrives.home_iff (arrives : Arrives N T p sin stray fuel T₁ q) (filed : Filed T live)
    (member : p ∈ live) :
    p ∈ T₁.pcbhashtbl (T₁.index p) ↔ T.stand p q p = T.index p := by
  obtain ⟨tuples, mask, chains⟩ := arrives.facts filed member
  have index : T₁.index p = T.index p := by
    obtain ⟨faddr, fport, laddr, lport⟩ := Tuple.mk.inj (tuples p)
    rw [Inpcbtable.index, mask, faddr, fport, laddr, lport, Inpcbtable.index]
  have once := chains p (T₁.index p)
  constructor
  · intro there
    rw [← (Chains.found_key once there).2, index]
  · intro same
    rw [index, if_pos ⟨member, same.symm⟩, ← index] at once
    exact List.count_pos_iff.mp (once ▸ Nat.one_pos)

theorem connect_cases (filed : Filed T live) (member : p ∈ live)
    (connected : inpcbConnect N fuel T p addr stray = some (code, T')) :
    (code ≠ 0 ∧ (T'.pcb p).tuple = (T.pcb p).tuple ∧ Filed T' live) ∨ ∃ sin T₁ q, addr = some sin ∧
      Arrives N T p sin stray fuel T₁ q ∧ connectTo T₁ p q.faddr q.fport q.laddr q.lport = (code, T') := by
  cases addr with
  | none =>
    cases connected
    exact .inl ⟨by decide, rfl, filed⟩
  | some sin =>
    unfold inpcbConnect at connected
    dsimp only at connected
    split at connected
    · cases connected
      exact .inl ⟨by decide, rfl, filed⟩
    · rename_i len
      split at connected
      · cases connected
        exact .inl ⟨by decide, rfl, filed⟩
      · rename_i family
        split at connected
        · cases connected
          exact .inl ⟨by decide, rfl, filed⟩
        · rename_i multicast
          split at connected
          · cases connected
            exact .inl ⟨by decide, rfl, filed⟩
          · rename_i primary rest list
            have accepted : Accepted N sin primary :=
              ⟨not_not.mp len, not_not.mp family, Bool.eq_false_iff.mpr multicast, by rw [list]; rfl⟩
            split at connected
            · rename_i bound
              exact .inr ⟨sin, _, _, rfl, .addressed accepted bound, Option.some.inj connected⟩
            · rename_i unbound
              cases routed : localAddr N primary (T.pcb p) (foreignAddr primary sin.addr) with
              | mk ro laddr =>
                rw [routed] at connected
                dsimp only at connected
                split at connected
                · rename_i port
                  exact .inr ⟨sin, _, _, rfl, .ported accepted (not_not.mp unbound) port routed,
                    Option.some.inj connected⟩
                · rename_i portless
                  split at connected
                  · cases connected
                  · rename_i Tb call
                    exact .inr ⟨sin, _, _, rfl, .bound accepted (not_not.mp unbound)
                      (not_not.mp portless) routed call,
                      Option.some.inj connected⟩
                  · rename_i err Tb nonzero call
                    cases connected
                    obtain ⟨_, _, _, kept⟩ := bind_alone call
                    refine .inl ⟨by decide, ?_, ((filed.routed p ro).bind member call).1⟩
                    rw [kept nonzero, modify_pcb]
                    rfl

theorem connectTo_twin (chains : ∃ key : Nat → UInt32, T.pcbhashtbl.Filed live key) (twin : T.Twin q) :
    ∃ T', connectTo T p q.faddr q.fport q.laddr q.lport = (eaddrnotavail, T') ∧ T'.pcb = T.pcb ∧
      T'.index = T.index ∧
      ∀ r i, r ∈ T'.pcbhashtbl i ↔ r ∈ T.pcbhashtbl i := by
  obtain ⟨key, chains⟩ := chains
  have same := hashlookup_perm chains q
  have found : (inpcbHashlookup T q.faddr q.fport q.laddr q.lport).1 ≠ none :=
    fun none => hashlookup_none_iff.mp none twin
  refine ⟨(inpcbHashlookup T q.faddr q.fport q.laddr q.lport).2, ?_, ?_, ?_, fun r i => (same i).mem_iff⟩
  · unfold connectTo
    split
    · rename_i looked
      rw [looked]
    · rename_i looked
      rw [looked] at found
      exact absurd rfl found
  · unfold inpcbHashlookup
    dsimp only
    split <;> rfl
  · unfold inpcbHashlookup
    dsimp only
    split <;> rfl

theorem connectTo_untwinned (none : ¬ T.Twin q) :
    ∃ T', connectTo T p q.faddr q.fport q.laddr q.lport = (0, T') ∧ (∀ r ≠ p, T'.pcb r = T.pcb r) ∧
      (T'.pcb p).tuple = q := by
  unfold connectTo
  rw [hashlookup_none (hashlookup_none_iff.mpr none)]
  refine ⟨_, rfl, fun r other => Function.update_of_ne other _ _, ?_⟩
  rw [Inpcbtable.rehash, modify_pcb]
  rfl

/-- A connect keeps its promises exactly when the lookup neither overlooks a pcb nor finds one while
    the pcb is astray. -/
theorem connect_well_iff (N : Net) (T : Inpcbtable) (live : Finset Nat) (p : Nat)
    (addr : Option SockaddrIn) (stray : Bool) (filed : Filed T live) (member : p ∈ live) :
    ConnectsWell N T live p addr stray ↔ Separable N T live p addr stray := by
  constructor
  · intro well
    constructor
    · rintro sin rfl q asked twinned
      obtain ⟨fuel, T₁, arrives⟩ := arrives_iff.mpr asked
      obtain ⟨_, _, chains⟩ := arrives.facts filed member
      have twin := (arrives.twin_iff filed member).mpr twinned
      obtain ⟨T', failed, _, index, same⟩ := @connectTo_twin T₁ live p q ⟨_, chains⟩ twin
      have call := connect_of_arrives arrives
      rw [failed] at call
      have home := (well.failed _ _ _ call (by decide)).2
      rw [same, index] at home
      exact (arrives.home_iff filed member).mp home
    · rintro sin rfl q asked differ ⟨r, alive, other, own⟩
      obtain ⟨fuel, T₁, arrives⟩ := arrives_iff.mpr asked
      obtain ⟨tuples, _⟩ := arrives.facts filed member
      by_contra none
      obtain ⟨T', done, others, mine⟩ := @connectTo_untwinned T₁ p q
        ((arrives.twin_iff filed member).not.mpr none)
      have call := connect_of_arrives arrives
      rw [done] at call
      apply well.only _ _ call r alive other
      rw [others r other, tuples, own, mine]
  · intro separable
    constructor
    · intro fuel code T' connected failed
      rcases connect_cases filed member connected with ⟨_, kept, filed'⟩ | ⟨sin, T₁, q, rfl, arrives, done⟩
      · refine ⟨kept, ?_⟩
        have once := filed'.chains p (T'.index p)
        rw [if_pos ⟨member, rfl⟩] at once
        exact List.count_pos_iff.mp (once ▸ Nat.one_pos)
      · obtain ⟨tuples, _, chains⟩ := arrives.facts filed member
        by_cases twin : T₁.Twin q
        · obtain ⟨T₂, refused, pcb, index, same⟩ := @connectTo_twin T₁ live p q ⟨_, chains⟩ twin
          rw [refused] at done
          cases done
          rw [pcb, index, same]
          refine ⟨tuples p, (arrives.home_iff filed member).mpr ?_⟩
          exact separable.home sin rfl q (arrives_iff.mp ⟨fuel, T₁, arrives⟩)
            ((arrives.twin_iff filed member).mp twin)
        · obtain ⟨T₂, succeeded, _⟩ := @connectTo_untwinned T₁ p q twin
          rw [succeeded] at done
          cases done
          exact absurd rfl failed
    · intro fuel T' connected r alive other
      rcases connect_cases filed member connected with ⟨wrong, _⟩ | ⟨sin, T₁, q, rfl, arrives, done⟩
      · exact absurd rfl wrong
      · obtain ⟨tuples, mask, chains⟩ := arrives.facts filed member
        by_cases twin : T₁.Twin q
        · obtain ⟨T₂, refused, _⟩ := @connectTo_twin T₁ live p q ⟨_, chains⟩ twin
          rw [refused] at done
          cases done
        · obtain ⟨T₂, succeeded, others, mine⟩ := @connectTo_untwinned T₁ p q twin
          rw [succeeded] at done
          cases done
          rw [others r other, tuples, mine]
          intro own
          apply twin
          by_cases ports : q.fport = q.lport
          · have once := chains r (T.stand p q r)
            rw [if_pos ⟨alive, rfl⟩, Inpcbtable.stand, if_neg other, index_tuple own, ← mask] at once
            refine ⟨r, List.count_pos_iff.mp (once ▸ Nat.one_pos), ?_⟩
            rw [hashMatch_tuple ((tuples r).trans own)]
            exact ports
          · have asked := arrives_iff.mp ⟨fuel, T₁, arrives⟩
            exact (arrives.twin_iff filed member).mpr
              (separable.seen sin rfl q asked ports ⟨r, alive, other, own⟩)

theorem bound_pcb_connects : ConnectsWell oneIf boundPcb {0x8b020000} 0x8b020000 (some server) false := by
  apply (connect_well_iff oneIf boundPcb {0x8b020000} 0x8b020000 (some server) false boundPcb_filed
    (by decide)).mpr
  have addressed : (boundPcb.pcb 0x8b020000).laddr ≠ inaddrAny := by decide +kernel
  constructor
  · intro sin _ q asked _
    cases asked with
    | addressed accepted bound =>
      rw [stand_index]
      rfl
    | ported accepted unbound => exact absurd unbound addressed
    | found accepted unbound => exact absurd unbound addressed
  · rintro sin _ q _ _ ⟨r, alive, other, _⟩
    exact absurd (Finset.mem_singleton.mp alive) other

abbrev firstConnected : Inpcbtable :=
  ((inpcbConnect oneIf 1 boundPcb 0x8b020000 (some server) false).getD (1, boundPcb)).2
abbrev twoPcbs : Inpcbtable := (allocInpcb firstConnected 0x8b020100 ⟨true, false, false, false⟩).2
abbrev bothBound : Inpcbtable :=
  ((inpcbBind oneIf 1 twoPcbs 0x8b020100 (some ⟨16, 2, htons 5000, htonl 0xc0a80105⟩) false).getD
    (1, twoPcbs)).2

theorem second_connect_succeeds : Filed bothBound {0x8b020100, 0x8b020000} ∧
    ¬ ConnectsWell oneIf bothBound {0x8b020100, 0x8b020000} 0x8b020100 (some server) false := by
  have addressed : (boundPcb.pcb 0x8b020000).laddr ≠ inaddrAny := by decide +kernel
  have first : Filed firstConnected {0x8b020000} :=
    (boundPcb_filed.connect (by decide) (fun _ _ _ any => absurd any addressed)
      (table_getD (d := (1, boundPcb)) (by decide +kernel))).1
  have second : Filed twoPcbs {0x8b020100, 0x8b020000} :=
    @Filed.alloc _ _ 0x8b020100 ⟨true, false, false, false⟩ first (by decide) (by decide)
  refine ⟨(second.bind (by decide) (table_getD (d := (1, twoPcbs)) (by decide +kernel))).1, fun well => ?_⟩
  have call : inpcbConnect oneIf 1 bothBound 0x8b020100 (some server) false =
      some (0, ((inpcbConnect oneIf 1 bothBound 0x8b020100 (some server) false).getD (1, bothBound)).2) :=
    table_getD (d := (1, bothBound)) (by decide +kernel)
  exact well.only 1 _ call 0x8b020000 (by decide) (by decide) (by decide +kernel)

end Embryo.Inet
