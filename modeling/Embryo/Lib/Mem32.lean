import Embryo.Machine.Bytes

namespace Embryo.Lib

open Embryo.Machine

def memcpy32 : Nat → Nat → Nat → Memory → Memory
  | _, _, 0, mem => mem
  | d, s, n + 1, mem => memcpy32 (d + 4) (s + 4) n (write mem d (bytes mem s 4))

def memset32 : Nat → Nat → Nat → Memory → Memory
  | _, _, 0, mem => mem
  | d, c, n + 1, mem => memset32 (d + 4) c n (store32 mem d c)

def memcpy32Checked (d s n : Nat) (mem : Memory) : Option Memory :=
  if n ≠ 0 ∧ (d % 4 ≠ 0 ∨ s % 4 ≠ 0) then none else some (memcpy32 d s n mem)

def memset32Checked (d c n : Nat) (mem : Memory) : Option Memory :=
  if n ≠ 0 ∧ d % 4 ≠ 0 then none else some (memset32 d c n mem)

theorem memcpy32_apply {d s : Nat} (above : d ≤ s) (n : Nat) (mem : Memory) (x : Nat) :
    memcpy32 d s n mem x = if d ≤ x ∧ x < d + 4 * n then mem (s + (x - d)) else mem x := by
  induction n generalizing d s mem with
  | zero => rw [memcpy32, if_neg (by omega)]
  | succ n ih =>
    rw [memcpy32, ih (by omega)]
    by_cases first : d ≤ x ∧ x < d + 4
    · rw [if_neg (by omega), if_pos (by omega), write, if_pos (by rw [bytes_length]; exact first)]
      have inside : x - d < (bytes mem s 4).length := by
        rw [bytes_length]
        omega
      rw [List.getD_eq_getElem _ _ inside]
      exact bytes_get mem s 4 (x - d) inside
    · by_cases later : d + 4 ≤ x ∧ x < d + 4 + 4 * n
      · rw [if_pos later, if_pos (by omega), write_outside (by rw [bytes_length]; omega)]
        congr 1
        omega
      · rw [if_neg later, if_neg (by omega), write_outside (by rw [bytes_length]; exact first)]

theorem memset32_zero (d n : Nat) (mem : Memory) (x : Nat) :
    memset32 d 0 n mem x = if d ≤ x ∧ x < d + 4 * n then 0 else mem x := by
  induction n generalizing d mem with
  | zero => rw [memset32, if_neg (by omega)]
  | succ n ih =>
    rw [memset32, ih]
    by_cases first : d ≤ x ∧ x < d + 4
    · rw [if_neg (by omega), if_pos (by omega), store32, if_pos first, Nat.zero_div]
      rfl
    · rw [store32_outside first]
      by_cases later : d + 4 ≤ x ∧ x < d + 4 + 4 * n
      · rw [if_pos later, if_pos (by omega)]
      · rw [if_neg later, if_neg (by omega)]

end Embryo.Lib
