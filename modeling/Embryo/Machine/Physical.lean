import Embryo.Machine.Bytes

namespace Embryo.Machine

/-- `VA_TO_PHY`: what an address of the unmapped segments names. Memory is physical here. -/
def phys (a : Nat) : Nat := a % 2^29

def field (mem : Memory) : Nat → Nat → Nat
  | _, 0 => 0
  | a, n + 1 => (mem (phys a)).toNat + 256 * field mem (a + 1) n

theorem field_congr {mem mem' : Memory} {a n : Nat}
    (same : ∀ k < n, mem' (phys (a + k)) = mem (phys (a + k))) : field mem' a n = field mem a n := by
  induction n generalizing a with
  | zero => rfl
  | succ n ih =>
    have first := same 0 (by omega)
    rw [Nat.add_zero] at first
    rw [field, field, first, ih]
    intro k bound
    rw [Nat.add_right_comm]
    exact same (k + 1) (by omega)

theorem field_zero {mem : Memory} {a n : Nat} (zero : ∀ k < n, mem (phys (a + k)) = 0) :
    field mem a n = 0 := by
  induction n generalizing a with
  | zero => rfl
  | succ n ih =>
    have first := zero 0 (by omega)
    rw [Nat.add_zero] at first
    rw [field, first, ih]
    · rfl
    · intro k bound
      rw [Nat.add_right_comm]
      exact zero (k + 1) (by omega)

def store (mem : Memory) : Nat → List UInt8 → Memory
  | _, [] => mem
  | a, b :: rest => store (Function.update mem (phys a) b) (a + 1) rest

theorem store_outside {mem : Memory} {a x : Nat} {data : List UInt8}
    (outside : ∀ k < data.length, phys (a + k) ≠ x) : store mem a data x = mem x := by
  induction data generalizing mem a with
  | nil => rfl
  | cons b rest ih =>
    have first := outside 0 (Nat.succ_pos _)
    rw [Nat.add_zero] at first
    rw [store, ih, Function.update_of_ne (Ne.symm first)]
    intro k bound
    rw [Nat.add_right_comm]
    exact outside (k + 1) (Nat.succ_lt_succ bound)

theorem store_inside {mem : Memory} {a k : Nat} {data : List UInt8} (short : data.length ≤ 2^29)
    (inside : k < data.length) : store mem a data (phys (a + k)) = data.get ⟨k, inside⟩ := by
  induction data generalizing mem a k with
  | nil => exact absurd inside (Nat.not_lt_zero k)
  | cons b rest ih =>
    simp only [List.length_cons] at short inside
    cases k with
    | zero =>
      rw [store, store_outside, Nat.add_zero, Function.update_self]
      · rfl
      · intro j bound
        simp only [phys]
        omega
    | succ k =>
      have shifted : a + (k + 1) = a + 1 + k := by omega
      rw [store, shifted, ih (by omega) (by omega)]
      rfl

def fetched (mem : Memory) (a n : Nat) : List UInt8 := (List.range n).map fun k => mem (phys (a + k))

theorem fetched_store {mem : Memory} {a : Nat} {data : List UInt8} (short : data.length ≤ 2^29) :
    fetched (store mem a data) a data.length = data := by
  apply List.ext_get
  · simp only [fetched, List.length_map, List.length_range]
  · intro k first second
    simp only [fetched, List.get_eq_getElem, List.getElem_map, List.getElem_range]
    exact store_inside short second

theorem fetched_congr {mem mem' : Memory} {a n : Nat}
    (same : ∀ k < n, mem' (phys (a + k)) = mem (phys (a + k))) : fetched mem' a n = fetched mem a n := by
  apply List.map_congr_left
  intro k member
  exact same k (List.mem_range.mp member)

end Embryo.Machine
