import Mathlib

namespace Embryo.Machine

def wrap (x : Nat) : Nat := x % 2^32

def wsub (x y : Nat) : Nat := wrap (2^32 - y + x)

theorem wrap_lt (x : Nat) : wrap x < 2^32 := Nat.mod_lt _ (by decide)

theorem wrap_of_lt {x : Nat} (bound : x < 2^32) : wrap x = x := Nat.mod_eq_of_lt bound

theorem wsub_of_le {x y : Nat} (le : y ≤ x) (bound : x < 2^32) : wsub x y = x - y := by
  simp only [wsub, wrap]
  omega

theorem wrap_add (x y : Nat) : wrap (wrap x + y) = wrap (x + y) := Nat.mod_add_mod x _ y

theorem wsub_wrap_add (x y : Nat) : wsub (wrap (y + x)) (wrap y) = wrap x := by
  simp only [wsub, wrap]
  omega

theorem wsub_le {x y : Nat} (le : y ≤ x) : wsub x y ≤ x := by
  simp only [wsub, wrap]
  omega

end Embryo.Machine
