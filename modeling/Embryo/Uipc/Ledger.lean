import Embryo.Uipc.Write

namespace Embryo.Uipc

open Embryo.Machine
open Embryo.Kmem (Arena kmemMalloc)

def addrs (live : List Mbuf) : List Nat := live.map Mbuf.addr

/-- From the mbufs `live` to the mbufs `live'`: whatever was in use, or has been taken since, has
    been freed once or is in use once. No block at an address of `watch` has been taken anew. -/
structure Moved (A : Arena) (watch : List Nat) (P P' : Pool) (live live' : List Mbuf) : Prop where
  wf : Wf A P' live'
  ledger : ∃ taken freed, P'.taken = taken ++ P.taken ∧ P'.freed = freed ++ P.freed ∧
    (freed ++ addrs live').Perm (taken ++ addrs live) ∧ ∀ a ∈ taken, a ∉ watch

variable {A : Arena} {watch : List Nat} {P P' P'' : Pool} {live live' live'' : List Mbuf}

theorem addrs_append (m n : List Mbuf) : addrs (m ++ n) = addrs m ++ addrs n := List.map_append

theorem Wf.nodup (wf : Wf A P live) : (addrs live).Nodup := by
  have apart := wf.placed.blocks_apart
  rw [List.pairwise_map] at apart
  apply List.pairwise_map.mpr
  apply apart.imp
  intro m n separate same
  simp only [Region.Apart, Region.stop, Mbuf.block, msize] at separate
  omega

theorem Moved.refl (watch : List Nat) (wf : Wf A P live) : Moved A watch P P live live :=
  ⟨wf, [], [], rfl, rfl, List.Perm.refl _, nofun⟩

theorem Moved.trans (first : Moved A watch P P' live live') (second : Moved A watch P' P'' live' live'') :
    Moved A watch P P'' live live'' := by
  obtain ⟨taken₁, freed₁, took₁, gone₁, balance₁, fresh₁⟩ := first.ledger
  obtain ⟨taken₂, freed₂, took₂, gone₂, balance₂, fresh₂⟩ := second.ledger
  refine ⟨second.wf, taken₂ ++ taken₁, freed₂ ++ freed₁, ?_, ?_, ?_, ?_⟩
  · rw [took₂, took₁, List.append_assoc]
  · rw [gone₂, gone₁, List.append_assoc]
  · apply List.perm_iff_count.mpr
    intro a
    have count₁ := balance₁.count_eq a
    have count₂ := balance₂.count_eq a
    simp only [List.count_append] at *
    omega
  · intro a member
    rcases List.mem_append.mp member with late | early
    · exact fresh₂ a late
    · exact fresh₁ a early

theorem Moved.perm {other other' : List Mbuf} (moved : Moved A watch P P' live live')
    (before : live.Perm other) (after : live'.Perm other') : Moved A watch P P' other other' := by
  obtain ⟨taken, freed, took, gone, balance, fresh⟩ := moved.ledger
  refine ⟨moved.wf.perm after, taken, freed, took, gone, ?_, fresh⟩
  apply ((after.map Mbuf.addr).symm.append_left freed).trans
  exact balance.trans ((before.map Mbuf.addr).append_left taken)

theorem Moved.same (watch : List Nat) (wf : Wf A P' live') (taken : P'.taken = P.taken)
    (freed : P'.freed = P.freed) (same : (addrs live').Perm (addrs live)) :
    Moved A watch P P' live live' := ⟨wf, [], [], taken, freed, same, nofun⟩

theorem Wf.freem_moved (wf : Wf A P (live' ++ live)) (watch : List Nat) :
    ∃ P', mbufFreem A P live' = some P' ∧ Moved A watch P P' (live' ++ live) live ∧ Calm P P' live := by
  obtain ⟨P', freed, wf', result⟩ := wf.freem
  refine ⟨P', freed, ⟨wf', [], _, result.taken, result.freed, ?_, nofun⟩, result.calm⟩
  rw [addrs_append]
  exact (List.reverse_perm _).append_right _

theorem Wf.take_moved (wf : Wf A P live) {type : Nat} (bound : type < 256) (pkt : Bool)
    (watched : ∀ a ∈ watch, a ∈ addrs live) :
    ((kmemMalloc A P.kmem msize).1 = 0 ∧ mbufTake A P type pkt = (none, P)) ∨
      ∃ p k, kmemMalloc A P.kmem msize = (p, k) ∧ p ≠ 0 ∧
        mbufTake A P type pkt = (some (initial (P.stale p) p type pkt), took P k p type) ∧
        Moved A watch P (took P k p type) live (initial (P.stale p) p type pkt :: live) := by
  rcases wf.take bound pkt with failed | ⟨p, k, call, nonzero, given, after⟩
  · exact .inl failed
  · refine .inr ⟨p, k, call, nonzero, given, after, [p], [], rfl, rfl, List.Perm.refl _, ?_⟩
    intro a member inWatch
    rw [List.mem_singleton.mp member] at inWatch
    have unique := (List.nodup_cons.mp after.nodup).1
    exact unique (watched p inWatch)

theorem mclfree_ledger {c : Nat} (released : mclfree A P c = some P') :
    P'.taken = P.taken ∧ P'.freed = P.freed := by
  simp only [mclfree, Pool.count] at released
  split at released
  · cases released
  · rename_i found
    split at found
    · simp only [Option.some.injEq] at found
      subst found
      split at released <;> simp only [Option.some.injEq] at released <;> subst released <;> exact ⟨rfl, rfl⟩
    · cases found

theorem mbufFree_ledger {m : Mbuf} (freed : mbufFree A P m = some P') :
    P'.taken = P.taken ∧ P'.freed = m.addr :: P.freed := by
  have untyped : (P.untype m.type).taken = P.taken ∧ (P.untype m.type).freed = P.freed := ⟨rfl, rfl⟩
  unfold mbufFree at freed
  generalize P.untype m.type = Q at *
  simp only at freed
  split at freed
  · cases freed
  · rename_i R released
    have same : R.taken = P.taken ∧ R.freed = P.freed := by
      rw [← untyped.1, ← untyped.2]
      split at released
      · split at released
        · cases released
        · exact mclfree_ledger released
      · simp only [Option.some.injEq] at released
        rw [released]
        exact ⟨rfl, rfl⟩
    split at freed
    · cases freed
    · simp only [Option.some.injEq] at freed
      rw [← freed]
      exact ⟨same.1, congrArg (m.addr :: ·) same.2⟩

theorem mbufFreem_ledger {chain : Chain} (freed : mbufFreem A P chain = some P') :
    P'.taken = P.taken ∧ P'.freed = (addrs chain).reverse ++ P.freed := by
  induction chain generalizing P with
  | nil =>
    simp only [mbufFreem, Option.some.injEq] at freed
    rw [← freed]
    exact ⟨rfl, rfl⟩
  | cons m rest ih =>
    rw [mbufFreem] at freed
    split at freed
    · cases freed
    · rename_i Q call
      have step := mbufFree_ledger call
      have tail := ih freed
      rw [tail.1, tail.2, step.1, step.2]
      simp [addrs]

end Embryo.Uipc
