import Mathlib

namespace Embryo.Machine

theorem takeWhile_range' (p : Nat → Bool) (s n : Nat) :
    ((List.range' s n).takeWhile p).length ≤ n ∧
      (∀ i, s ≤ i → i < s + ((List.range' s n).takeWhile p).length → p i = true) ∧
      (((List.range' s n).takeWhile p).length < n → p (s + ((List.range' s n).takeWhile p).length) =
        false) := by
  induction n generalizing s with
  | zero =>
    exact ⟨Nat.le_refl 0, fun i low high => absurd low (by simpa using high), fun less =>
      absurd less (Nat.not_lt_zero _)⟩
  | succ n ih =>
    rw [List.range'_succ, List.takeWhile_cons]
    cases here : p s with
    | false => exact ⟨Nat.zero_le _, fun i low high => absurd high (by simpa using low), fun _ => here⟩
    | true =>
      obtain ⟨bound, all, stop⟩ := ih (s + 1)
      simp only [if_true, List.length_cons]
      generalize ((List.range' (s + 1) n).takeWhile p).length = k at bound all stop ⊢
      refine ⟨by omega, fun i low high => ?_, fun less => ?_⟩
      · by_cases first : i = s
        · rw [first, here]
        · exact all i (by omega) (by omega)
      · rw [show s + (k + 1) = s + 1 + k by omega]
        exact stop (by omega)

theorem takeWhile_reverse_range (p : Nat → Bool) (n : Nat) :
    ((List.range n).reverse.takeWhile p).length ≤ n ∧
      (∀ i, n - ((List.range n).reverse.takeWhile p).length ≤ i → i < n → p i = true) ∧
      (((List.range n).reverse.takeWhile p).length < n →
        p (n - ((List.range n).reverse.takeWhile p).length - 1) = false) := by
  induction n with
  | zero =>
    exact ⟨Nat.le_refl 0, fun i _ high => absurd high (Nat.not_lt_zero i), fun less =>
      absurd less (Nat.not_lt_zero _)⟩
  | succ n ih =>
    rw [List.range_succ, List.reverse_concat, List.takeWhile_cons]
    cases here : p n with
    | false => exact ⟨Nat.zero_le _, fun i low high => absurd high (by simpa using low), fun _ => here⟩
    | true =>
      obtain ⟨bound, all, stop⟩ := ih
      simp only [if_true, List.length_cons]
      generalize ((List.range n).reverse.takeWhile p).length = k at bound all stop ⊢
      refine ⟨by omega, fun i low high => ?_, fun less => ?_⟩
      · by_cases first : i = n
        · rw [first, here]
        · exact all i (by omega) (by omega)
      · rw [show n + 1 - (k + 1) - 1 = n - k - 1 by omega]
        exact stop (by omega)

end Embryo.Machine
