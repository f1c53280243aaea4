import Embryo.Kmem.Model
import Embryo.Machine.Linked
import Embryo.Machine.Region

namespace Embryo.Kmem

open Embryo.Machine

theorem bucketIndex_bounds {size : Nat} (small : size ≤ maxAllocSave) :
    minBucket ≤ bucketIndex size ∧ bucketIndex size < nrBuckets - 1 ∧ size ≤ 2^bucketIndex size := by
  have bound : size ≤ 524288 := small
  have unit : minAllocSize = 16 := rfl
  unfold bucketIndex
  split_ifs
  all_goals
    simp only [unit, minBucket, nrBuckets] at *
    norm_num
    omega

theorem roundPage_eq {size : Nat} (bound : size + 4095 < 2^32) :
    roundPage size = (size + 4095) / 4096 * 4096 := by
  simp only [roundPage, wrap, pageSize]
  omega

theorem roundCluster_eq {size : Nat} (bound : size + 4095 < 2^32) :
    roundCluster size = (size + 4095) / 4096 * 4096 := by
  simp only [roundCluster, wrap, clBytes, pageSize]
  omega

theorem kmemAlloc_fails {A : Arena} {k : State} {size : Nat} (page : size % pageSize = 0)
    (bound : size ≤ kmemSize) (offs : k.kmemoffs ≤ kmemSize)
    (full : kmemSize < k.kmemoffs + size) : kmemAlloc A k size = (0, k) := by
  simp only [kmemSize, clBytes, pageSize] at *
  have round : roundPage size = size := by
    rw [roundPage_eq (by omega)]
    omega
  simp only [kmemAlloc, round, wrap, kmemSize, clBytes, pageSize]
  rw [if_pos (by omega)]

theorem kmemAlloc_grants {A : Arena} {k : State} {size : Nat} (page : size % pageSize = 0)
    (room : k.kmemoffs + size ≤ kmemSize) :
    kmemAlloc A k size = (A.kmembase + k.kmemoffs, { k with kmemoffs := k.kmemoffs + size }) := by
  simp only [kmemSize, clBytes, pageSize] at *
  have round : roundPage size = size := by
    rw [roundPage_eq (by omega)]
    omega
  simp only [kmemAlloc, round, wrap, kmemSize, clBytes, pageSize]
  rw [if_neg (by omega)]

def cells (va size : Nat) : Nat → List Nat
  | 0 => []
  | count + 1 => va :: cells (va + size) size count

theorem cells_mem {va size count a : Nat} (member : a ∈ cells va size count) :
    ∃ j, j < count ∧ a = va + j * size := by
  induction count generalizing va with
  | zero => cases member
  | succ count ih =>
    rcases List.mem_cons.mp member with rfl | member
    · exact ⟨0, by omega, by simp⟩
    · obtain ⟨j, bound, rfl⟩ := ih member
      exact ⟨j + 1, by omega, by rw [Nat.add_mul]; omega⟩

theorem cells_bounds {va size count a : Nat} (member : a ∈ cells va size count) :
    va ≤ a ∧ a + size ≤ va + count * size := by
  obtain ⟨j, bound, rfl⟩ := cells_mem member
  have := Nat.mul_le_mul_right size (show j + 1 ≤ count from bound)
  rw [Nat.add_mul] at this
  omega

theorem cells_apart (va size count : Nat) :
    ((cells va size count).map (fun a => (⟨a, size⟩ : Region))).Pairwise Region.Apart := by
  induction count generalizing va with
  | zero => exact .nil
  | succ count ih =>
    refine List.pairwise_cons.mpr ⟨?_, ih (va + size)⟩
    intro r member
    obtain ⟨a, memberA, rfl⟩ := List.mem_map.mp member
    have := (cells_bounds memberA).1
    left
    simpa only [Region.stop] using this

theorem cells_nodup {va size count : Nat} (positive : 0 < size) : (cells va size count).Nodup := by
  induction count generalizing va with
  | zero => exact .nil
  | succ count ih =>
    refine List.nodup_cons.mpr ⟨fun member => ?_, ih⟩
    have := (cells_bounds member).1
    omega

theorem cells_getLast (va size count : Nat) :
    (cells va size (count + 1)).getLast? = some (va + count * size) := by
  induction count generalizing va with
  | zero => simp [cells]
  | succ count ih =>
    have step : cells va size (count + 1 + 1) = va :: cells (va + size) size (count + 1) := rfl
    rw [step, List.getLast?_cons, ih, Nat.add_mul]
    simp only [Option.getD_some, Option.some.injEq]
    omega

theorem carve_links {size passes count va pieces : Nat} {next : Nat → Nat} (positive : 0 < size)
    (nonzero : va ≠ 0) (enough : count < passes) :
    ∃ c, carve size (va + (count + 1) * size) passes ⟨va, next, pieces⟩ = c ∧
      c.va = va + count * size ∧
      Linked (Function.update c.next c.va 0) va (cells va size (count + 1)) ∧
      (∀ x, x ∉ cells va size (count + 1) → c.next x = next x) := by
  induction count generalizing va passes next pieces with
  | zero =>
    obtain ⟨passes, rfl⟩ : ∃ m, passes = m + 1 := ⟨passes - 1, by omega⟩
    refine ⟨⟨va, next, pieces⟩, ?_, by simp, ?_, fun x _ => rfl⟩
    · simp [carve]
    · exact ⟨rfl, nonzero, by simp [cells, Linked]⟩
  | succ count ih =>
    obtain ⟨passes, rfl⟩ : ∃ m, passes = m + 1 := ⟨passes - 1, by omega⟩
    have limit : va + (count + 1 + 1) * size = va + size + (count + 1) * size := by
      rw [Nat.add_mul (count + 1)]
      omega
    obtain ⟨c, carved, stop, linked, frame⟩ := @ih passes (va + size) (pieces + 1)
      (Function.update next va (va + size)) (by omega) (by omega)
    have before : va ∉ cells (va + size) size (count + 1) := by
      intro member
      have := (cells_bounds member).1
      omega
    have tail : c.va ∈ cells (va + size) size (count + 1) := by
      apply List.mem_of_getLast?
      rw [cells_getLast, stop]
    refine ⟨c, ?_, ?_, ?_, ?_⟩
    · have more : ¬ va + size ≥ va + size + (count + 1) * size := by
        have : 0 < (count + 1) * size := Nat.mul_pos (by omega) positive
        omega
      rw [limit, carve, if_neg more]
      exact carved
    · rw [stop, Nat.add_mul]
      omega
    · refine ⟨rfl, nonzero, ?_⟩
      have link : Function.update c.next c.va 0 va = va + size := by
        have other : va ≠ c.va := fun same => before (same ▸ tail)
        rw [Function.update_of_ne other, frame va before]
        simp
      rw [link]
      exact linked
    · intro x outside
      simp only [cells, List.mem_cons, not_or] at outside
      rw [frame x (by simpa only [cells, List.mem_cons, not_or] using outside.2),
        Function.update_of_ne outside.1]

end Embryo.Kmem
