import Embryo.Exec.Order

namespace Embryo.Exec

open Embryo.Machine

def HeapClear (a n : Nat) : Prop := n = 0 ∨ ¬ mdOnHeapSpace a ∧ n ≤ (phys heapBase + 2^29 - phys a) % 2^29

instance (a n : Nat) : Decidable (HeapClear a n) := inferInstanceAs (Decidable (_ ∨ _ ∧ _))

theorem heapClear_iff (a n : Nat) : HeapClear a n ↔ ∀ k < n, ¬ mdOnHeapSpace (a + k) := by
  simp only [HeapClear, mdOnHeapSpace, phys, heapBase, heapSize]
  constructor
  · intro clear k less
    omega
  · intro clear
    by_cases zero : n = 0
    · exact Or.inl zero
    · right
      have first := clear 0 (by omega)
      refine ⟨first, ?_⟩
      by_contra far
      have reached := clear ((0x8f400000 % 2^29 + 2^29 - a % 2^29) % 2^29) (by omega)
      omega

def HeapKept (mem mem' : Memory) : Prop := ∀ x, mdOnHeapSpace x → mem' (phys x) = mem (phys x)

theorem store_heapKept {mem : Memory} {a : Nat} {data : List UInt8} (clear : HeapClear a data.length) :
    HeapKept mem (store mem a data) := by
  intro x onHeap
  apply store_outside
  intro k bound same
  apply (heapClear_iff a data.length).mp clear k bound
  simpa only [mdOnHeapSpace, same] using onHeap

theorem HeapKept.trans {mem mem' mem'' : Memory} (first : HeapKept mem mem') (second : HeapKept mem' mem'') :
    HeapKept mem mem'' := fun x onHeap => (second x onHeap).trans (first x onHeap)

theorem field_kept {mem mem' : Memory} (kept : HeapKept mem mem') {a n : Nat} (low : heapBase ≤ a)
    (high : a + n ≤ heapBase + heapSize) : field mem' a n = field mem a n := by
  apply field_congr
  intro k bound
  apply kept
  simp only [mdOnHeapSpace, phys, heapBase, heapSize] at low high ⊢
  omega

namespace Tables

structure Placed (blk : Tables) (lay : Layout) (n : Nat) : Prop where
  headerLow : heapBase ≤ blk.elfhdr
  headerHigh : blk.elfhdr + lay.ehdrSize ≤ heapBase + heapSize
  tableLow : heapBase ≤ blk.ephdrtab
  tableHigh : blk.ephdrtab + n * lay.phdrSize ≤ heapBase + heapSize
  apart : blk.elfhdr + lay.ehdrSize ≤ blk.ephdrtab ∨ blk.ephdrtab + n * lay.phdrSize ≤ blk.elfhdr

instance (blk : Tables) (lay : Layout) (n : Nat) : Decidable (blk.Placed lay n) :=
  decidable_of_iff (heapBase ≤ blk.elfhdr ∧ blk.elfhdr + lay.ehdrSize ≤ heapBase + heapSize ∧
    heapBase ≤ blk.ephdrtab ∧ blk.ephdrtab + n * lay.phdrSize ≤ heapBase + heapSize ∧
    (blk.elfhdr + lay.ehdrSize ≤ blk.ephdrtab ∨ blk.ephdrtab + n * lay.phdrSize ≤ blk.elfhdr))
    ⟨fun ⟨a, b, c, d, e⟩ => ⟨a, b, c, d, e⟩, fun ⟨a, b, c, d, e⟩ => ⟨a, b, c, d, e⟩⟩

variable {blk : Tables} {lay : Layout} {n : Nat}

theorem ephdr_bounds {i : Nat} (bound : i < n) :
    blk.ephdrtab ≤ blk.ephdr lay i ∧ blk.ephdr lay i + lay.phdrSize ≤ blk.ephdrtab + n * lay.phdrSize := by
  have next : (i + 1) * lay.phdrSize ≤ n * lay.phdrSize := Nat.mul_le_mul_right _ bound
  rw [Nat.add_mul, Nat.one_mul] at next
  unfold ephdr
  omega

theorem phdrs_length (mem : Memory) : (blk.phdrs lay mem).length = field mem (blk.elfhdr + lay.ePhnum) 2 := by
  simp only [phdrs, List.length_map, List.length_range]

theorem phdrs_get {mem : Memory} {i : Nat} {p : Phdr} (entry : (blk.phdrs lay mem)[i]? = some p) :
    phdrAt lay mem (blk.ephdr lay i) = p := by
  simp only [phdrs, List.getElem?_map, Option.map_eq_some_iff] at entry
  obtain ⟨j, there, same⟩ := entry
  obtain ⟨_, same'⟩ := List.getElem?_eq_some_iff.mp there
  rw [List.getElem_range] at same'
  rw [same', same]

theorem phdrAt_congr {mem mem' : Memory} {a : Nat}
    (same : ∀ k < lay.phdrSize, mem' (phys (a + k)) = mem (phys (a + k))) :
    phdrAt lay mem' a = phdrAt lay mem a := by
  have typed := lay.typed
  have read : ∀ offset ∈ [lay.pOffset, lay.pVaddr, lay.pFilesz, lay.pMemsz],
      field mem' (a + offset) lay.word = field mem (a + offset) lay.word := by
    intro offset member
    have inside := lay.inside offset member
    apply field_congr
    intro k bound
    rw [Nat.add_assoc]
    exact same (offset + k) (by omega)
  have type : field mem' a 4 = field mem a 4 := by
    apply field_congr
    intro k bound
    exact same k (by omega)
  simp only [phdrAt, type, read lay.pOffset (by simp), read lay.pVaddr (by simp), read lay.pFilesz (by simp),
    read lay.pMemsz (by simp)]

theorem phdrAt_retire (mem : Memory) (a : Nat) (short : lay.phdrSize ≤ 2^29) :
    phdrAt lay (store mem a [0, 0, 0, 0]) a = { phdrAt lay mem a with pType := ptNull } := by
  have read : ∀ offset ∈ [lay.pOffset, lay.pVaddr, lay.pFilesz, lay.pMemsz],
      field (store mem a [0, 0, 0, 0]) (a + offset) lay.word = field mem (a + offset) lay.word := by
    intro offset member
    have inside := lay.inside offset member
    apply field_congr
    intro k bound
    apply store_outside
    intro j less
    simp only [List.length_cons, List.length_nil] at less
    simp only [phys]
    omega
  have type : field (store mem a [0, 0, 0, 0]) a 4 = 0 := by
    apply field_zero
    intro k bound
    have inside := @store_inside mem a k [0, 0, 0, 0] (by simp) bound
    rw [inside]
    have cases : k = 0 ∨ k = 1 ∨ k = 2 ∨ k = 3 := by omega
    rcases cases with rfl | rfl | rfl | rfl <;> rfl
  simp only [phdrAt, type, read lay.pOffset (by simp), read lay.pVaddr (by simp), read lay.pFilesz (by simp),
    read lay.pMemsz (by simp), ptNull]

theorem phdrs_kept {mem mem' : Memory} (kept : HeapKept mem mem')
    (placed : blk.Placed lay (blk.phdrs lay mem).length) : blk.phdrs lay mem' = blk.phdrs lay mem := by
  have number : field mem' (blk.elfhdr + lay.ePhnum) 2 = field mem (blk.elfhdr + lay.ePhnum) 2 := by
    have counted := lay.counted
    have low := placed.headerLow
    have high := placed.headerHigh
    exact field_kept kept (by omega) (by omega)
  unfold phdrs
  rw [number]
  apply List.map_congr_left
  intro i member
  rw [phdrs_length] at placed
  have entry := @ephdr_bounds blk lay _ i (List.mem_range.mp member)
  have low := placed.tableLow
  have high := placed.tableHigh
  apply phdrAt_congr
  intro k bound
  apply kept
  simp only [mdOnHeapSpace, phys, heapBase, heapSize] at low high ⊢
  omega

theorem field_retire {mem : Memory} {i n offset size : Nat} (placed : blk.Placed lay n) (bound : i < n)
    (inside : offset + size ≤ lay.ehdrSize) :
    field (store mem (blk.ephdr lay i) [0, 0, 0, 0])
    (blk.elfhdr + offset) size = field mem (blk.elfhdr + offset) size := by
  have low := placed.tableLow
  have high := placed.tableHigh
  have low' := placed.headerLow
  have high' := placed.headerHigh
  have here := @ephdr_bounds blk lay _ i bound
  have typed := lay.typed
  have apart := placed.apart
  apply field_congr
  intro k less
  apply store_outside
  intro j less'
  simp only [List.length_cons, List.length_nil] at less'
  simp only [phys, heapBase, heapSize] at low high low' high' ⊢
  omega

theorem phdrs_retire {mem : Memory} {i : Nat} (placed : blk.Placed lay (blk.phdrs lay mem).length)
    (bound : i < (blk.phdrs lay mem).length) :
    blk.phdrs lay (store mem (blk.ephdr lay i) [0, 0, 0, 0]) = retired (blk.phdrs lay mem) i := by
  have low := placed.tableLow
  have high := placed.tableHigh
  have here := @ephdr_bounds blk lay _ i bound
  have typed := lay.typed
  have number := @field_retire blk lay mem i _ lay.ePhnum 2 placed bound lay.counted
  apply List.ext_getElem?
  intro j
  unfold retired
  rw [List.getElem?_modify]
  simp only [phdrs, number, List.getElem?_map]
  by_cases inside : j < field mem (blk.elfhdr + lay.ePhnum) 2
  · rw [List.getElem?_range inside]
    by_cases same : i = j
    · subst same
      have short : lay.phdrSize ≤ 2^29 := by
        simp only [heapBase, heapSize] at low high
        omega
      simp only [if_true, Option.map_some]
      rw [phdrAt_retire _ _ short]
      rfl
    · simp only [same, if_false, Option.map_some]
      congr 1
      rw [phdrs_length] at placed bound here high
      have there := @ephdr_bounds blk lay _ j inside
      have between : blk.ephdr lay i + lay.phdrSize ≤ blk.ephdr lay j ∨
          blk.ephdr lay j + lay.phdrSize ≤ blk.ephdr lay i := by
        unfold ephdr
        rcases Nat.lt_or_gt_of_ne same with less | less
        · have next : (i + 1) * lay.phdrSize ≤ j * lay.phdrSize := Nat.mul_le_mul_right _ less
          rw [Nat.add_mul] at next
          omega
        · have next : (j + 1) * lay.phdrSize ≤ i * lay.phdrSize := Nat.mul_le_mul_right _ less
          rw [Nat.add_mul] at next
          omega
      apply phdrAt_congr
      intro k less
      apply store_outside
      intro l less'
      simp only [List.length_cons, List.length_nil] at less'
      simp only [phys, heapBase, heapSize] at low high ⊢
      omega
  · rw [List.getElem?_eq_none (by simpa using inside)]
    simp

end Tables

end Embryo.Exec
