import Mathlib.Tactic.Ring
import Mathlib.Tactic.Linarith

namespace Embryo.Lib

/-- The first loop of `__div64_u32`, on `rem`, `b` and `d`: `(int64_t)b > 0` is a test of the top bit. -/
def div64Up (rem : Nat) : Nat → Nat → Nat → Option (Nat × Nat)
  | 0, _, _ => none
  | fuel + 1, b, d =>
    if (0 < b ∧ b < 2^63) ∧ b < rem then div64Up rem fuel (b * 2 % 2^64) (d * 2 % 2^64) else some (b, d)

/-- The second loop, which runs its body before it looks at `d`. -/
def div64Down : Nat → Nat → Nat → Nat → Nat → Option (Nat × Nat)
  | 0, _, _, _, _ => none
  | fuel + 1, rem, res, b, d =>
    let left := if rem ≥ b then rem - b else rem
    let res := if rem ≥ b then (res + d) % 2^64 else res
    if d / 2 = 0 then some (res, left) else div64Down fuel left res (b / 2) (d / 2)

/-- The two loops: the quotient that is stored, and the remainder, of which 32 bits are returned. -/
def div64Bits (rem res base : Nat) : Option (Nat × Nat) :=
  match div64Up rem 65 base 1 with
  | none => none
  | some (b, d) => (div64Down 65 rem res b d).map fun (res, rem) => (res, rem % 2^32)

def __div64_u32 (n base : Nat) : Option (Nat × Nat) :=
  let high := n / 2^32
  if high ≥ base then
    div64Bits ((n + 2^64 - high / base * base % 2^32 * 2^32 % 2^64) % 2^64) (high / base * 2^32 % 2^64) base
  else div64Bits n 0 base

theorem div64Up_doubles (rem base k fuel : Nat) (pos : 0 < base) (small : base * 2^k < 2^64)
    (fits : rem < 2^64) (enough : 64 < fuel + k) :
    ∃ j, div64Up rem fuel (base * 2^k) (2^k) = some (base * 2^j, 2^j) ∧ base * 2^j < 2^64 ∧
      rem < 2 * (base * 2^j) := by
  induction fuel generalizing k with
  | zero =>
    have large : 2^64 ≤ 2^k := Nat.pow_le_pow_right (by decide) (by omega)
    have wide : 2^k ≤ base * 2^k := Nat.le_mul_of_pos_left _ pos
    omega
  | succ fuel ih =>
    have some : 0 < base * 2^k := Nat.mul_pos pos (Nat.pow_pos (by decide))
    rw [div64Up]
    split
    next more =>
      have doubled : base * 2^k * 2 = base * 2^(k + 1) := by rw [pow_succ, Nat.mul_assoc]
      have room : base * 2^(k + 1) < 2^64 := by omega
      have shift : 2^(k + 1) ≤ base * 2^(k + 1) := Nat.le_mul_of_pos_left _ pos
      rw [doubled, ← pow_succ, Nat.mod_eq_of_lt room, Nat.mod_eq_of_lt (by omega)]
      exact ih (k + 1) room (by omega)
    next last => exact ⟨k, rfl, small, by omega⟩

theorem div64Down_divides {rem res base k fuel : Nat} (pos : 0 < base) (bound : rem < 2 * (base * 2^k))
    (fits : res + rem < 2^64) (enough : k < fuel) :
    div64Down fuel rem res (base * 2^k) (2^k) = some (res + rem / base, rem % base) := by
  induction k generalizing fuel rem res with
  | zero =>
    obtain ⟨fuel, rfl⟩ : ∃ rest, fuel = rest + 1 := ⟨fuel - 1, by omega⟩
    rw [pow_zero, Nat.mul_one] at bound ⊢
    rw [div64Down]
    by_cases large : rem ≥ base
    · simp only [if_pos large]
      have once : rem = rem - base + base := by omega
      have quotient : rem / base = 1 := by
        rw [once, Nat.add_div_right _ pos, Nat.div_eq_of_lt (by omega)]
      have remainder : rem % base = rem - base := by
        rw [Nat.mod_eq_sub_mod large, Nat.mod_eq_of_lt (by omega)]
      rw [if_pos (by decide), quotient, remainder, Nat.mod_eq_of_lt (by omega)]
    · simp only [if_neg large]
      rw [if_pos (by decide), Nat.div_eq_of_lt (by omega), Nat.mod_eq_of_lt (by omega), Nat.add_zero]
  | succ k ih =>
    obtain ⟨fuel, rfl⟩ : ∃ rest, fuel = rest + 1 := ⟨fuel - 1, by omega⟩
    have halfBase : base * 2^(k + 1) / 2 = base * 2^k := by
      rw [pow_succ, ← Nat.mul_assoc, Nat.mul_div_cancel _ (by decide)]
    have half : 2^(k + 1) / 2 = 2^k := by rw [pow_succ, Nat.mul_div_cancel _ (by decide)]
    have goes : ¬ 2^k = 0 := Nat.pos_iff_ne_zero.mp (Nat.pow_pos (by decide))
    have step : base * 2^(k + 1) = 2 * (base * 2^k) := by rw [pow_succ]; ring
    rw [div64Down, half, halfBase]
    by_cases large : rem ≥ base * 2^(k + 1)
    · simp only [if_pos large]
      have wide : 2^(k + 1) ≤ base * 2^(k + 1) := Nat.le_mul_of_pos_left _ pos
      rw [if_neg goes, Nat.mod_eq_of_lt (by omega), ih (by omega) (by omega) (by omega)]
      have taken : rem = rem - base * 2^(k + 1) + base * 2^(k + 1) := by omega
      have quotient : rem / base = (rem - base * 2^(k + 1)) / base + 2^(k + 1) := by
        conv_lhs => rw [taken, Nat.add_mul_div_left _ _ pos]
      have remainder : rem % base = (rem - base * 2^(k + 1)) % base := by
        conv_lhs => rw [taken, Nat.add_mul_mod_self_left]
      rw [quotient, remainder, Nat.add_assoc, Nat.add_comm (2^(k + 1))]
    · simp only [if_neg large]
      rw [if_neg goes]
      exact ih (by omega) fits (by omega)

theorem div64Bits_divides {rem res base : Nat} (pos : 0 < base) (wide : base < 2^32)
    (fits : res + rem < 2^64) :
    div64Bits rem res base = some (res + rem / base, rem % base) := by
  obtain ⟨j, runs, held, reach⟩ :=
    div64Up_doubles rem base 0 65 pos (by omega) (by omega) (by decide)
  have steps : j < 65 := by
    by_contra far
    have large : 2^65 ≤ 2^j := Nat.pow_le_pow_right (by decide) (by omega)
    have above : 2^j ≤ base * 2^j := Nat.le_mul_of_pos_left _ pos
    omega
  rw [pow_zero, Nat.mul_one] at runs
  rw [div64Bits, runs]
  simp only
  rw [div64Down_divides pos reach fits steps, Option.map_some,
    Nat.mod_eq_of_lt (Nat.lt_trans (Nat.mod_lt rem pos) wide)]

theorem div64_exact {n base : Nat} (pos : 0 < base) (wide : base < 2^32) (bound : n < 2^64) :
    __div64_u32 n base = some (n / base, n % base) := by
  rw [__div64_u32]
  by_cases large : n / 2^32 ≥ base
  · have part : n / 2^32 / base * base ≤ n / 2^32 := Nat.div_mul_le_self _ _
    have word : n / 2^32 / base ≤ n / 2^32 / base * base := Nat.le_mul_of_pos_right _ pos
    generalize high : n / 2^32 / base = q at part word
    have taken : n = n - q * base * 2^32 + base * (q * 2^32) := by
      rw [show base * (q * 2^32) = q * base * 2^32 by ring]
      omega
    have quotient : n / base = (n - q * base * 2^32) / base + q * 2^32 := by
      conv_lhs => rw [taken, Nat.add_mul_div_left _ _ pos]
    have remainder : n % base = (n - q * base * 2^32) % base := by
      conv_lhs => rw [taken, Nat.add_mul_mod_self_left]
    simp only [if_pos large]
    rw [Nat.mod_eq_of_lt (a := q * 2^32) (by omega), Nat.mod_eq_of_lt (a := q * base) (by omega),
      Nat.mod_eq_of_lt (a := q * base * 2^32) (by omega),
      show (n + 2^64 - q * base * 2^32) % 2^64 = n - q * base * 2^32 by omega,
      div64Bits_divides pos wide (by omega), quotient, remainder, Nat.add_comm]
  · simp only [if_neg large]
    rw [div64Bits_divides pos wide (by omega), Nat.zero_add]

end Embryo.Lib
