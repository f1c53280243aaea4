import Embryo.Machine.Bytes
import Embryo.Machine.Region

namespace Embryo.Machine

/-- Memory, and what an allocator gives out next. The last three fields only record the blocks in use,
    the blocks released, and what has been written to a released one. -/
structure Heap where
  mem : Memory
  given : List Nat
  blocks : List Region
  released : List Region
  stray : List Region

namespace Heap

instance (r q : Region) : Decidable (Region.Apart r q) :=
  inferInstanceAs (Decidable (r.stop ≤ q.addr ∨ q.stop ≤ r.addr))

/-- The block, or 0. A released block is none any more once it is given out again. -/
def malloc (h : Heap) (size : Nat) : Nat × Heap :=
  match h.given with
  | [] => (0, h)
  | p :: given =>
    if p = 0 then (0, { h with given })
    else (p, { h with
      given
      blocks := ⟨p, size⟩ :: h.blocks
      released := h.released.filter fun r => Region.Apart r ⟨p, size⟩ })

def free (h : Heap) (p : Nat) : Heap :=
  { h with
    blocks := h.blocks.filter fun r => r.addr ≠ p
    released := (h.blocks.filter fun r => r.addr = p) ++ h.released }

def store (h : Heap) (a : Nat) (xs : List UInt8) : Heap :=
  { h with
    mem := write h.mem a xs
    stray := if ∃ r ∈ h.released, ¬ Region.Apart r ⟨a, xs.length⟩ then ⟨a, xs.length⟩ :: h.stray
      else h.stray }

def Kept (h : Heap) (r : Region) : Prop := ∀ q ∈ h.released, Region.Apart q r

variable {h h' : Heap} {a p size x : Nat} {xs : List UInt8} {r r' : Region}

@[simp] theorem store_mem (h : Heap) (a : Nat) (xs : List UInt8) :
    (h.store a xs).mem = write h.mem a xs := rfl

@[simp] theorem store_released (h : Heap) (a : Nat) (xs : List UInt8) :
    (h.store a xs).released = h.released := rfl

@[simp] theorem store_blocks (h : Heap) (a : Nat) (xs : List UInt8) : (h.store a xs).blocks = h.blocks := rfl

@[simp] theorem free_mem (h : Heap) (p : Nat) : (h.free p).mem = h.mem := rfl

@[simp] theorem free_stray (h : Heap) (p : Nat) : (h.free p).stray = h.stray := rfl

theorem Kept.mono (kept : h.Kept r) (within : Region.Within r' r) : h.Kept r' :=
  fun q member => (kept q member).mono ⟨Nat.le_refl _, Nat.le_refl _⟩ within

theorem Kept.store (kept : h.Kept r) : (h.store a xs).Kept r := kept

theorem store_stray (kept : h.Kept ⟨a, xs.length⟩) : (h.store a xs).stray = h.stray := by
  apply if_neg
  rintro ⟨q, member, together⟩
  exact together (kept q member)

theorem store_stale (released : r ∈ h.released) (stale : ¬ Region.Apart r ⟨a, xs.length⟩) :
    h.stray.length < (h.store a xs).stray.length := by
  have grown : (h.store a xs).stray = ⟨a, xs.length⟩ :: h.stray := if_pos ⟨r, released, stale⟩
  rw [grown, List.length_cons]
  omega

theorem stray_grows (h : Heap) (a : Nat) (xs : List UInt8) :
    h.stray.length ≤ (h.store a xs).stray.length := by
  unfold store
  dsimp only
  split
  · rw [List.length_cons]
    omega
  · exact Nat.le_refl _

theorem malloc_kept (given : h.malloc size = (p, h')) (nonzero : p ≠ 0) : h'.Kept ⟨p, size⟩ := by
  unfold malloc at given
  split at given
  · cases given
    exact absurd rfl nonzero
  · split at given
    · cases given
      exact absurd rfl nonzero
    · cases given
      intro q member
      exact of_decide_eq_true (List.mem_filter.mp member).2

theorem malloc_mem (given : h.malloc size = (p, h')) : h'.mem = h.mem ∧ h'.stray = h.stray := by
  unfold malloc at given
  split at given
  · cases given
    exact ⟨rfl, rfl⟩
  · split at given <;> cases given <;> exact ⟨rfl, rfl⟩

theorem malloc_blocks (given : h.malloc size = (p, h')) (member : r ∈ h.blocks) : r ∈ h'.blocks := by
  unfold malloc at given
  split at given
  · cases given
    exact member
  · split at given
    · cases given
      exact member
    · cases given
      exact List.mem_cons_of_mem _ member

theorem free_released (member : ⟨p, size⟩ ∈ h.blocks) : ⟨p, size⟩ ∈ (h.free p).released :=
  List.mem_append_left _ (List.mem_filter.mpr ⟨member, decide_eq_true rfl⟩)

theorem malloc_block (given : h.malloc size = (p, h')) (nonzero : p ≠ 0) : ⟨p, size⟩ ∈ h'.blocks := by
  unfold malloc at given
  split at given
  · cases given
    exact absurd rfl nonzero
  · split at given
    · cases given
      exact absurd rfl nonzero
    · cases given
      exact List.mem_cons_self

end Heap

end Embryo.Machine
