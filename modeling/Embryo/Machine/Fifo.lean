import Mathlib

namespace Embryo.Machine

variable {α : Type}

def window (cells : Nat → α) (size first count : Nat) : List α :=
  (List.range count).map fun i => cells ((first + i) % size)

variable (cells : Nat → α) (size first count : Nat)

theorem window_length : (window cells size first count).length = count := by
  rw [window, List.length_map, List.length_range]

theorem window_put (u : α) (room : count < size) :
    window (Function.update cells ((first + count) % size) u) size first (count + 1) =
      window cells size first count ++ [u] := by
  rw [window, List.range_succ, List.map_append, List.map_singleton, Function.update_self]
  congr 1
  refine List.map_congr_left fun i member => Function.update_of_ne (fun same => ?_) _ _
  have low := List.mem_range.mp member
  have apart : (first + count - (first + i)) % size = 0 := Nat.sub_mod_eq_zero_of_mod_eq same.symm
  rw [Nat.add_sub_add_left, Nat.mod_eq_of_lt (by omega)] at apart
  omega

theorem window_get :
    window cells size first (count + 1) = cells (first % size) ::
      window cells size ((first + 1) % size) count := by
  rw [window, List.range_succ_eq_map, List.map_cons, List.map_map, Nat.add_zero, window]
  congr 1
  refine List.map_congr_left fun i _ => ?_
  rw [Function.comp_apply, Nat.mod_add_mod, Nat.succ_eq_add_one, Nat.add_right_comm, Nat.add_assoc]

theorem window_getD {i : Nat} (d : α) (inside : i < count) :
    (window cells size first count).getD i d = cells ((first + i) % size) := by
  rw [window, List.getD_eq_getElem _ _ (by rw [List.length_map, List.length_range]; exact inside),
    List.getElem_map, List.getElem_range]

inductive Exchange (α : Type) where
  | put (u : α)
  | get

/-- A queue that holds no more than `capacity`, as a list with the oldest first: what is put goes to
    the end where there is room, and what is taken is the first where there is one. -/
def fifo (capacity : Nat) : List α → Exchange α → Option (Option α × List α)
  | l, .put u => if l.length < capacity then some (none, l ++ [u]) else none
  | [], .get => none
  | u :: l, .get => some (some u, l)

end Embryo.Machine
