import Embryo.Kmem.Invariant

namespace Embryo.Kmem

open Embryo.Machine

variable {A : Arena} {k : State} {fixed : List Region} {live : List Holding}
  {chunks : Nat → List Nat} {regions : List Region}

theorem chunk_count {i : Nat} (memberI : i ∈ indices) :
    ∃ count, roundCluster (2^i) = (count + 1) * 2^i ∧ roundCluster (2^i) % pageSize = 0 ∧
      roundCluster (2^i) / 2^i = count + 1 ∧ count * 2^i < pageSize := by
  obtain ⟨low, high⟩ := mem_indices.mp memberI
  simp only [minBucket, nrBuckets] at low high
  refine ⟨roundCluster (2^i) / 2^i - 1, ?_⟩
  interval_cases i <;> decide

theorem owned_refill {i : Nat} (memberI : i ∈ indices) (empty : chunks i = []) (nodes : List Nat) :
    (owned fixed live (Function.update chunks i nodes)).Perm (nodes ++ owned fixed live chunks) := by
  have old := pool_split chunks memberI
  have new := pool_update chunks memberI nodes
  rw [empty, List.nil_append] at old
  have whole := new.trans (old.symm.append_left nodes)
  simp only [owned]
  apply (whole.append_left _).trans
  rw [← List.append_assoc, ← List.append_assoc nodes]
  exact List.perm_append_comm.append_right _

theorem Inv.refill_bucket (inv : Inv A k fixed live chunks regions) {i : Nat} (memberI : i ∈ indices)
    (empty : chunks i = []) (room : k.kmemoffs + roundCluster (2^i) ≤ kmemSize) :
    ∃ count, Inv A
        (refill A { k with kmemoffs := k.kmemoffs + roundCluster (2^i) } i (A.kmembase + k.kmemoffs))
        fixed live (Function.update chunks i (cells (A.kmembase + k.kmemoffs) (2^i) (count + 1)))
        ((cells (A.kmembase + k.kmemoffs) (2^i) (count + 1)).map (fun a => ⟨a, 2^i⟩) ++ regions) ∧
      ∀ x < A.kmembase + k.kmemoffs, (refill A { k with kmemoffs := k.kmemoffs + roundCluster (2^i) } i
        (A.kmembase + k.kmemoffs)).next x = k.next x := by
  obtain ⟨count, total, page, passes, near⟩ := chunk_count memberI
  have positive : 0 < 2^i := Nat.two_pow_pos i
  have offsPage := inv.offsPage
  have base := A.positive
  have bounds : ∀ a ∈ cells (A.kmembase + k.kmemoffs) (2^i) (count + 1),
      A.kmembase + k.kmemoffs ≤ a ∧ a + 2^i ≤ A.kmembase + k.kmemoffs + roundCluster (2^i) ∧
        a < A.kmembase + k.kmemoffs + pageSize := by
    intro a member
    have := cells_bounds member
    rw [Nat.add_mul] at this
    rw [total, Nat.add_mul]
    omega
  obtain ⟨c, carved, stop, linked, frame⟩ := @carve_links (2^i) (roundCluster (2^i) / 2^i) count
    (A.kmembase + k.kmemoffs) 1 k.next positive (by omega) (by omega)
  rw [← total] at carved
  have ends : c.va ∈ cells (A.kmembase + k.kmemoffs) (2^i) (count + 1) := by
    apply List.mem_of_getLast?
    rw [cells_getLast, stop]
  have nodup := @cells_nodup (A.kmembase + k.kmemoffs) (2^i) (count + 1) positive
  have apart := cells_apart (A.kmembase + k.kmemoffs) (2^i) (count + 1)
  have last := cells_getLast (A.kmembase + k.kmemoffs) (2^i) count
  have result : refill A { k with kmemoffs := k.kmemoffs + roundCluster (2^i) } i (A.kmembase + k.kmemoffs) =
      { kmemoffs := k.kmemoffs + roundCluster (2^i)
        kmemusage := Function.update k.kmemusage (usageIndex A (A.kmembase + k.kmemoffs)) ⟨i, c.npieces⟩
        buckets := Function.update k.buckets i ⟨A.kmembase + k.kmemoffs, c.va⟩
        next := Function.update c.next c.va 0 } := by
    simp only [refill, carved]
  refine ⟨count, ?_⟩
  rw [result]
  generalize cells (A.kmembase + k.kmemoffs) (2^i) (count + 1) = nodes at *
  have fresh : usageIndex A (A.kmembase + k.kmemoffs) = k.kmemoffs / pageSize :=
    usageIndex_fresh A k.kmemoffs 0 (by decide) offsPage
  have below : ∀ x < A.kmembase + k.kmemoffs, Function.update c.next c.va 0 x = k.next x := by
    intro x less
    have := (bounds c.va ends).1
    rw [Function.update_of_ne (by omega)]
    apply frame
    intro member
    have := (bounds x member).1
    omega
  refine ⟨?_, below⟩
  constructor
  · exact room
  · simp only [pageSize] at *
    omega
  · intro r member
    rcases List.mem_append.mp member with member | member
    · obtain ⟨a, memberA, rfl⟩ := List.mem_map.mp member
      have := bounds a memberA
      simp only [Region.stop]
      omega
    · obtain ⟨low, high, size⟩ := inv.bounds r member
      refine ⟨low, ?_, size⟩
      simp only
      omega
  · apply List.pairwise_append.mpr
    refine ⟨apart, inv.apart, ?_⟩
    intro r memberR q memberQ
    obtain ⟨a, memberA, rfl⟩ := List.mem_map.mp memberR
    right
    have := (inv.bounds q memberQ).2.1
    have := (bounds a memberA).1
    simp only
    omega
  · intro j memberJ
    by_cases same : j = i
    · simp only [same, Function.update_self]
      exact linked
    · simp only [Function.update_of_ne same]
      apply (inv.linked j memberJ).congr
      intro b memberB
      exact below b (inv.owned_lt (mem_owned_chunk memberJ memberB)).2.1
  · intro j memberJ b memberB
    by_cases same : j = i
    · rw [same, Function.update_self, last] at memberB
      simp only [Option.mem_def, Option.some.injEq] at memberB
      simp only [same, Function.update_self, ← memberB, stop]
    · simp only [Function.update_of_ne same] at memberB ⊢
      exact inv.last j memberJ b memberB
  · intro j outside
    have other : j ≠ i := fun same => outside (same ▸ memberI)
    simpa only [Function.update_of_ne other] using inv.spare j outside
  · intro j memberJ b memberB
    by_cases same : j = i
    · rw [same, Function.update_self] at memberB
      rw [same]
      refine ⟨List.mem_append_left _ (List.mem_map.mpr ⟨b, memberB, rfl⟩), ?_⟩
      obtain ⟨low, _, high⟩ := bounds b memberB
      have here := usageIndex_fresh A k.kmemoffs (b - (A.kmembase + k.kmemoffs)) (by omega) offsPage
      rw [show A.kmembase + k.kmemoffs + (b - (A.kmembase + k.kmemoffs)) = b by omega] at here
      simp only [fresh, here, Function.update_self]
    · rw [Function.update_of_ne same] at memberB
      obtain ⟨region, mark⟩ := inv.chunk j memberJ b memberB
      refine ⟨List.mem_append_right _ region, ?_⟩
      simp only [fresh]
      rw [inv.mark_fresh _ (Nat.le_refl _) (mem_owned_chunk memberJ memberB)]
      exact mark
  · intro h member
    obtain ⟨region, mark⟩ := inv.held h member
    refine ⟨List.mem_append_right _ region, ?_⟩
    simp only [fresh]
    rw [inv.mark_fresh _ (Nat.le_refl _) (mem_owned_live member)]
    exact mark
  · intro r member
    exact List.mem_append_right _ (inv.fixedMem r member)
  · rw [(owned_refill memberI empty nodes).nodup_iff]
    apply List.nodup_append.mpr
    refine ⟨nodup, inv.nodup, ?_⟩
    intro a memberA b memberB same
    have := (bounds a memberA).1
    have := (inv.owned_lt memberB).2.1
    omega

theorem Inv.take_large (inv : Inv A k fixed live chunks regions) {size : Nat} (mark : Kmemusage)
    (large : maxAllocSave < size) (page : roundCluster size % pageSize = 0)
    (positive : 0 < roundCluster size) (room : k.kmemoffs + roundCluster size ≤ kmemSize)
    (index : mark.kuIndex = ((nrBuckets - 1 : Nat) : Int)) :
    Inv A
      { k with
        kmemoffs := k.kmemoffs + roundCluster size
        kmemusage := Function.update k.kmemusage (usageIndex A (A.kmembase + k.kmemoffs)) mark }
      fixed (⟨A.kmembase + k.kmemoffs, size⟩ :: live) chunks
      (⟨A.kmembase + k.kmemoffs, roundCluster size⟩ :: regions) := by
  have taken := inv.take_pages positive page room
  have fresh : usageIndex A (A.kmembase + k.kmemoffs) = k.kmemoffs / pageSize :=
    usageIndex_fresh A k.kmemoffs 0 (by decide) inv.offsPage
  have small : ¬ size ≤ maxAllocSave := by omega
  constructor
  · exact taken.offsLe
  · exact taken.offsPage
  · exact taken.bounds
  · exact taken.apart
  · exact inv.linked
  · exact inv.last
  · exact inv.spare
  · intro i memberI a memberA
    obtain ⟨region, kept⟩ := inv.chunk i memberI a memberA
    refine ⟨List.mem_cons_of_mem _ region, ?_⟩
    simp only [fresh]
    rw [inv.mark_fresh _ (Nat.le_refl _) (mem_owned_chunk memberI memberA)]
    exact kept
  · intro h member
    rcases List.mem_cons.mp member with rfl | member
    · simp only [Holding.region, blockSize, small, if_false, Function.update_self, Holding.index, index]
      exact ⟨List.mem_cons_self, trivial⟩
    · obtain ⟨region, kept⟩ := inv.held h member
      refine ⟨List.mem_cons_of_mem _ region, ?_⟩
      simp only [fresh]
      rw [inv.mark_fresh _ (Nat.le_refl _) (mem_owned_live member)]
      exact kept
  · intro r member
    exact List.mem_cons_of_mem _ (inv.fixedMem r member)
  · have before := taken.nodup
    simp only [owned, List.map_cons, List.cons_append] at before ⊢
    rw [List.append_assoc] at before ⊢
    rw [List.cons_append]
    exact List.perm_middle.nodup_iff.mpr before

structure Served (A : Arena) (k : State) (fixed : List Region) (live : List Holding) (size p : Nat)
    (k' : State) : Prop where
  nonzero : p ≠ 0
  offs : k.kmemoffs ≤ k'.kmemoffs
  untouched : ∀ x < A.kmembase + k.kmemoffs, k'.next x = k.next x
  clusters : maxAllocSave < size →
    (k'.kmemusage (usageIndex A p)).kuUn * clBytes = roundCluster size
  inv : ∃ chunks regions, Inv A k' fixed (⟨p, size⟩ :: live) chunks regions

theorem Inv.malloc_small (inv : Inv A k fixed live chunks regions) {size : Nat}
    (small : size ≤ maxAllocSave) :
    kmemMalloc A k size = (0, k) ∨
      ∃ p k', kmemMalloc A k size = (p, k') ∧ Served A k fixed live size p k' := by
  obtain ⟨low, high, _⟩ := bucketIndex_bounds small
  have memberI := mem_indices.mpr ⟨low, high⟩
  simp only [kmemMalloc_eq, small, if_true]
  generalize bucket : bucketIndex size = i at *
  have linked := inv.linked i memberI
  by_cases empty : chunks i = []
  · obtain ⟨count, total, page, _, near⟩ := chunk_count memberI
    have bound : roundCluster (2^i) ≤ kmemSize := by
      simp only [minBucket, nrBuckets] at low high
      interval_cases i <;> decide
    rw [if_pos (linked.first_eq_zero_iff.mpr empty)]
    by_cases room : k.kmemoffs + roundCluster (2^i) ≤ kmemSize
    · right
      obtain ⟨cut, filled, below⟩ := inv.refill_bucket memberI empty room
      obtain ⟨popped, popInv⟩ := filled.pop_chunk memberI (Function.update_self ..) small bucket
      have nonzero : A.kmembase + k.kmemoffs ≠ 0 := by
        have := A.positive
        omega
      rw [kmemAlloc_grants page room]
      simp only [nonzero, if_false]
      refine ⟨_, _, popped, nonzero, ?_, below, by omega, _, _, popInv⟩
      simp only [refill]
      omega
    · left
      rw [kmemAlloc_fails page bound inv.offsLe (by omega)]
      simp only [if_true]
  · right
    obtain ⟨a, rest, nodes⟩ := List.exists_cons_of_ne_nil empty
    rw [if_neg (mt linked.first_eq_zero_iff.mp empty)]
    obtain ⟨popped, popInv⟩ := inv.pop_chunk memberI nodes small bucket
    refine ⟨_, _, popped, ?_, Nat.le_refl _, fun _ _ => rfl, by omega, _, _, popInv⟩
    exact linked.nonzero (by rw [nodes]; exact List.mem_cons_self)

theorem Inv.malloc_large (inv : Inv A k fixed live chunks regions) {size : Nat}
    (large : maxAllocSave < size) (bound : size + 4095 < 2^32) :
    kmemMalloc A k size = (0, k) ∨
      ∃ p k', kmemMalloc A k size = (p, k') ∧ Served A k fixed live size p k' := by
  have small : ¬ size ≤ maxAllocSave := by omega
  have round := roundCluster_eq bound
  have page : roundCluster size % pageSize = 0 := by
    rw [round]
    exact Nat.mul_mod_left _ _
  have positive : 0 < roundCluster size := by
    rw [round]
    omega
  simp only [kmemMalloc_eq, small, if_false]
  by_cases huge : roundCluster size > kmemSize
  · left
    rw [if_pos huge]
  · rw [if_neg huge]
    by_cases room : k.kmemoffs + roundCluster size ≤ kmemSize
    · right
      have nonzero : A.kmembase + k.kmemoffs ≠ 0 := by
        have := A.positive
        omega
      rw [kmemAlloc_grants page room]
      simp only [nonzero, if_false]
      refine ⟨_, _, rfl, nonzero, ?_, fun _ _ => rfl, ?_, _, _,
        inv.take_large _ large page positive room rfl⟩
      · simp only
        omega
      · intro _
        simp only [Function.update_self, clBytes, pageSize, wrap, kmemSize] at *
        omega
    · left
      rw [kmemAlloc_fails page (by omega) inv.offsLe (by omega)]
      simp only [if_true]

theorem Inv.malloc (inv : Inv A k fixed live chunks regions) {size : Nat} (bound : size + 4095 < 2^32) :
    kmemMalloc A k size = (0, k) ∨
      ∃ p k', kmemMalloc A k size = (p, k') ∧ Served A k fixed live size p k' := by
  rcases Nat.lt_or_ge maxAllocSave size with large | small
  · exact inv.malloc_large large bound
  · exact inv.malloc_small small

end Embryo.Kmem
