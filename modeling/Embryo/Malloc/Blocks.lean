import Embryo.Malloc.Model

namespace Embryo.Malloc

open Embryo.Machine

structure Block where
  addr : Nat
  size : Nat
  free : Bool
deriving DecidableEq, Repr

def Block.stop (b : Block) : Nat := b.addr + sizeofHeader * b.size

def Tiled : Nat → List Block → Nat → Prop
  | lo, [], hi => lo = hi
  | lo, b :: bs, hi => b.addr = lo ∧ 0 < b.size ∧ Tiled b.stop bs hi

theorem tiled_append {lo hi : Nat} {left right : List Block} :
    Tiled lo (left ++ right) hi ↔ ∃ mid, Tiled lo left mid ∧ Tiled mid right hi := by
  induction left generalizing lo with
  | nil => simp [Tiled]
  | cons b left ih =>
    simp only [List.cons_append, Tiled, ih]
    constructor
    · rintro ⟨addr, size, mid, first, second⟩
      exact ⟨mid, ⟨addr, size, first⟩, second⟩
    · rintro ⟨mid, ⟨addr, size, first⟩, second⟩
      exact ⟨addr, size, mid, first, second⟩

theorem Tiled.le {lo hi : Nat} {bs : List Block} (tiled : Tiled lo bs hi) : lo ≤ hi := by
  induction bs generalizing lo with
  | nil => exact Nat.le_of_eq tiled
  | cons b bs ih =>
    obtain ⟨addr, _, rest⟩ := tiled
    have := ih rest
    simp only [Block.stop] at this
    omega

theorem Tiled.bounds {lo hi : Nat} {bs : List Block} (tiled : Tiled lo bs hi) {b : Block}
    (member : b ∈ bs) : lo ≤ b.addr ∧ b.stop ≤ hi ∧ 0 < b.size := by
  obtain ⟨left, right, rfl⟩ := List.append_of_mem member
  obtain ⟨mid, first, second⟩ := tiled_append.mp tiled
  obtain ⟨addr, size, rest⟩ := second
  have := first.le
  have := rest.le
  exact ⟨by omega, by omega, size⟩

theorem Block.addr_lt_stop {b : Block} (positive : 0 < b.size) : b.addr < b.stop := by
  simp only [Block.stop, sizeofHeader]
  omega

theorem Tiled.around {lo hi : Nat} {left right : List Block} {b : Block}
    (tiled : Tiled lo (left ++ b :: right) hi) :
    (∀ a ∈ left, a.stop ≤ b.addr) ∧ (∀ c ∈ right, b.stop ≤ c.addr) := by
  obtain ⟨mid, first, second⟩ := tiled_append.mp tiled
  obtain ⟨addr, _, rest⟩ := second
  refine ⟨fun a member => ?_, fun c member => (rest.bounds member).1⟩
  have := (first.bounds member).2.1
  omega

theorem Tiled.pairwise {lo hi : Nat} {bs : List Block} (tiled : Tiled lo bs hi) :
    bs.Pairwise (fun a b => a.stop ≤ b.addr) := by
  induction bs generalizing lo with
  | nil => exact .nil
  | cons b bs ih =>
    obtain ⟨_, _, rest⟩ := tiled
    exact List.pairwise_cons.mpr ⟨fun c member => (rest.bounds member).1, ih rest⟩

theorem Tiled.covers {lo hi : Nat} {bs : List Block} (tiled : Tiled lo bs hi) {x : Nat}
    (lower : lo ≤ x) (upper : x < hi) : ∃! b, b ∈ bs ∧ b.addr ≤ x ∧ x < b.stop := by
  induction bs generalizing lo with
  | nil => simp only [Tiled] at tiled; omega
  | cons b bs ih =>
    obtain ⟨addr, size, rest⟩ := tiled
    by_cases inside : x < b.stop
    · refine ⟨b, ⟨by simp, by omega, inside⟩, ?_⟩
      rintro c ⟨member, low, _⟩
      rcases List.mem_cons.mp member with rfl | member
      · rfl
      · have := (rest.bounds member).1
        omega
    · obtain ⟨c, ⟨member, low, high⟩, unique⟩ := ih rest (by omega)
      refine ⟨c, ⟨List.mem_cons_of_mem _ member, low, high⟩, ?_⟩
      rintro d ⟨memberD, lowD, highD⟩
      rcases List.mem_cons.mp memberD with rfl | memberD
      · omega
      · exact unique d ⟨memberD, lowD, highD⟩

def freeAddrs (bs : List Block) : List Nat := (bs.filter (·.free)).map (·.addr)

@[simp] theorem freeAddrs_nil : freeAddrs [] = [] := rfl

@[simp] theorem freeAddrs_append (left right : List Block) :
    freeAddrs (left ++ right) = freeAddrs left ++ freeAddrs right := by
  simp [freeAddrs]

@[simp] theorem freeAddrs_cons (b : Block) (bs : List Block) :
    freeAddrs (b :: bs) = if b.free then b.addr :: freeAddrs bs else freeAddrs bs := by
  by_cases h : b.free <;> simp [freeAddrs, h]

theorem mem_freeAddrs {bs : List Block} {x : Nat} :
    x ∈ freeAddrs bs ↔ ∃ b ∈ bs, b.free = true ∧ b.addr = x := by
  simp [freeAddrs, and_assoc]

def below (L : Layout) : List Nat := if L.base < L.heapBase then [L.base] else []
def above (L : Layout) : List Nat := if L.base < L.heapBase then [] else [L.base]

def nodes (L : Layout) (bs : List Block) : List Nat := below L ++ freeAddrs bs ++ above L

theorem mem_below {L : Layout} {x : Nat} (member : x ∈ below L) : x = L.base ∧ x < L.heapBase := by
  unfold below at member
  split at member
  · rename_i h
    simp only [List.mem_singleton] at member
    exact ⟨member, by omega⟩
  · simp at member

theorem mem_above {L : Layout} {x : Nat} (member : x ∈ above L) : x = L.base ∧ L.heapTop < x := by
  unfold above at member
  split at member
  · simp at member
  · rename_i h
    simp only [List.mem_singleton] at member
    refine ⟨member, ?_⟩
    have := L.apart
    simp only [sizeofHeader] at this
    omega

theorem base_mem_ends (L : Layout) (mid : List Nat) : L.base ∈ below L ++ mid ++ above L := by
  unfold below above
  split <;> simp

theorem base_outside {L : Layout} {x : Nat} (lower : L.heapBase ≤ x) (upper : x ≤ L.heapTop) :
    L.base ≠ x := by
  have := L.apart
  simp only [sizeofHeader] at this
  omega

theorem nodes_sorted {L : Layout} {bs : List Block} {hi : Nat} (tiled : Tiled L.heapBase bs hi)
    (bound : hi ≤ L.heapTop) : (nodes L bs).Pairwise (· < ·) := by
  have inside : ∀ x ∈ freeAddrs bs, L.heapBase ≤ x ∧ x ≤ L.heapTop := by
    intro x member
    obtain ⟨b, memberB, _, rfl⟩ := mem_freeAddrs.mp member
    obtain ⟨lower, upper, positive⟩ := tiled.bounds memberB
    have := Block.addr_lt_stop positive
    omega
  have sorted : (freeAddrs bs).Pairwise (· < ·) := by
    have order : (bs.filter (·.free)).Pairwise (fun a b => a.stop ≤ b.addr) :=
      tiled.pairwise.sublist List.filter_sublist
    refine List.pairwise_map.mpr (List.Pairwise.imp_of_mem ?_ order)
    intro a b memberA _ le
    have := Block.addr_lt_stop (tiled.bounds (List.mem_filter.mp memberA).1).2.2
    omega
  refine List.pairwise_append.mpr ⟨List.pairwise_append.mpr ⟨?_, sorted, ?_⟩, ?_, ?_⟩
  · unfold below; split <;> simp
  · intro x memberX y memberY
    have := (mem_below memberX).2
    have := (inside y memberY).1
    omega
  · unfold above; split <;> simp
  · intro x memberX y memberY
    have := (mem_above memberY).2
    rcases List.mem_append.mp memberX with memberX | memberX
    · have := (mem_below memberX).2
      have := L.heap_le
      omega
    · have := (inside x memberX).2
      omega

end Embryo.Malloc
