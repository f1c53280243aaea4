import Embryo.Uipc.Clusters

namespace Embryo.Uipc

open Embryo.Machine
open Embryo.Kmem (Arena kmemAlloc kmemMalloc kmemSize clBytes)

structure Exhausted (A : Arena) (P : Pool) : Prop where
  empty : P.mclfree = 0
  full : (kmemAlloc A P.kmem clBytes).1 = 0

def Clusterless (A : Arena) (m : Mbuf) : Prop :=
  ∀ P P', mbufFree A P m = some P' → P'.refcnt = P.refcnt ∧ P'.mclfree = P.mclfree ∧ P'.mem = P.mem

def Refuses (A : Arena) (P : Pool) (m : Mbuf) : Prop :=
  ∃ code m' P', mbufGetext A P m = some (code, m', P') ∧ code ≠ 0 ∧ m'.flags.ext = false ∧ m'.data = m.data ∧
    P'.refcnt = P.refcnt ∧ Clusterless A m'

variable {A : Arena} {P Q Q' : Pool} {m : Mbuf} {type : Nat} {pkt : Bool}

theorem mbufTake_fresh (call : mbufTake A Q type pkt = (some m, Q')) :
    m.flags.ext = false ∧ m.ext = (Q.stale m.addr).ext := by
  have made : ∀ P P', P.stale = Q.stale → mget A P type pkt = (some m, P') → m.flags.ext = false ∧
      m.ext = (Q.stale m.addr).ext := by
    intro P P' stale given
    rw [mget] at given
    dsimp only at given
    split at given
    · cases given
    · cases given
      rw [stale]
      exact ⟨rfl, rfl⟩
  have failed : ∀ P', mget A Q type pkt = (Option.none, P') → P'.stale = Q.stale := by
    intro P' given
    rw [mget] at given
    dsimp only at given
    split at given
    · cases given
      rfl
    · cases given
  rw [mbufTake] at call
  split at call
  · cases call
  split at call
  · rename_i given
    cases call
    exact made Q Q' rfl given
  · rename_i P' given
    exact made P' Q' (failed P' given) call

theorem Exhausted.mclalloc_none (exhausted : Exhausted A P) :
    ∃ k, mclalloc A P = some (none, { P with kmem := k }) := by
  refine ⟨(kmemAlloc A P.kmem clBytes).2, ?_⟩
  have failed : (mbufClalloc A P 1).2 = { P with kmem := (kmemAlloc A P.kmem clBytes).2 } := by
    rw [mbufClalloc]
    dsimp only
    rw [Nat.one_mul, if_pos exhausted.full]
  rw [mclalloc, if_pos exhausted.empty, failed]
  dsimp only
  rw [if_neg (not_not.mpr exhausted.empty)]

theorem clusterless (plain : m.flags.ext = false) : Clusterless A m := by
  intro P P' freed
  rw [mbufFree, plain, if_neg Bool.false_ne_true] at freed
  dsimp only at freed
  cases released : Kmem.kmemFree A (P.untype m.type).kmem m.addr with
  | none =>
    rw [released] at freed
    cases freed
  | some k =>
    rw [released] at freed
    cases freed
    exact ⟨rfl, rfl, rfl⟩

/-- With no cluster left, `mbuf_getext` refuses a fresh mbuf exactly when the word at the place of
    `me_buf` happens to be zero. -/
theorem exhaustion_reported_iff (fresh : mbufTake A Q type pkt = (some m, Q')) (exhausted : Exhausted A P) :
    Refuses A P m ↔ (Q.stale m.addr).ext.meBuf = 0 := by
  obtain ⟨plain, ext⟩ := mbufTake_fresh fresh
  obtain ⟨k, failed⟩ := exhausted.mclalloc_none
  have word : m.ext.meBuf = (Q.stale m.addr).ext.meBuf := by rw [ext]
  rw [← word]
  constructor
  · rintro ⟨code, m', P', returned, nonzero, -⟩
    by_contra left
    rw [mbufGetext, failed] at returned
    dsimp only at returned
    rw [Option.getD_none, if_pos left] at returned
    cases returned
    exact nonzero rfl
  · intro zero
    refine ⟨1, { m with ext := { m.ext with meBuf := m.ext.meBuf } }, { P with kmem := k }, ?_,
      one_ne_zero, plain, rfl, rfl, clusterless plain⟩
    rw [mbufGetext, failed]
    dsimp only
    rw [Option.getD_none, if_neg (not_not.mpr zero), if_neg (by rw [plain]; decide)]

/-- Two clusters are in use, the rest of the memory is too, and the blocks hold what was in them before. -/
abbrev spent (meBuf : Nat) : Pool :=
  { secondExt.2.2 with
    kmem := (kmemMalloc Kmem.board secondExt.2.2.kmem (kmemSize - secondExt.2.2.kmem.kmemoffs)).2
    stale := fun _ => ⟨0, ⟨0, 0⟩, ⟨meBuf, 0, 0, 0⟩⟩ }

abbrev lateGet (meBuf : Nat) : Option Mbuf × Pool := mbufTake Kmem.board (spent meBuf) 2 false

theorem exhaustion_reported_zero :
    Refuses Kmem.board (lateGet 0).2 (mbufOf (lateGet 0)) ↔
      ((spent 0).stale (mbufOf (lateGet 0)).addr).ext.meBuf = 0 :=
  exhaustion_reported_iff (@get_eq (lateGet 0) (by decide +kernel)) ⟨by decide +kernel, by decide +kernel⟩

/-- A pointer left from earlier use of the block is taken for a cluster. -/
theorem stale_pointer_taken : ¬ Refuses Kmem.board (lateGet 0x8b018000).2 (mbufOf (lateGet 0x8b018000)) := by
  rintro ⟨code, m', P', returned, nonzero, -⟩
  have taken : (mbufGetext Kmem.board (lateGet 0x8b018000).2 (mbufOf (lateGet 0x8b018000))).map
    Prod.fst = some 0 := by decide +kernel
  rw [returned, Option.map_some] at taken
  exact nonzero (Option.some.inj taken)

end Embryo.Uipc
