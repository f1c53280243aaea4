import Embryo.Machine.CString
import Embryo.Machine.Wildcard

namespace Embryo.Lib

open Embryo.Machine

def agree : Str → Str → Bool
  | _, [] => true
  | [], _ :: _ => false
  | p :: s, q :: d => if p = q ∨ q = 63 then agree s d else false

def firstLoop (q : UInt8) (d : Str) : Nat → Str → Option Nat
  | _, [] => none
  | i, c :: s => if (c = q ∨ q = 63) ∧ agree s d then some i else firstLoop q d (i + 1) s

def __find_first (s : Str) : Str → Option Nat
  | [] => some 0
  | q :: d => firstLoop q d 0 s

def lastLoop (q : UInt8) (d : Str) : Nat → Option Nat → Str → Option Nat
  | _, maybe, [] => maybe
  | i, maybe, c :: s => lastLoop q d (i + 1) (if (c = q ∨ q = 63) ∧ agree s d then some i else maybe) s

def __find_last (s : Str) : Str → Option Nat
  | [] => some s.length
  | q :: d => lastLoop q d 0 none s

def inPiece (c : UInt8) : Bool := c ≠ 42 && c ≠ 36

/-- The loop of `strpat`, with the place of `s` in `s0` and what is left of the marked pattern. -/
def strpatLoop (s0 : Str) : Nat → Nat → Str → Option Bool
  | 0, _, _ => none
  | _ + 1, _, [] => none
  | fuel + 1, s, mark :: d =>
    if mark = 94 ∨ mark = 42 then
      let temp := d.takeWhile inPiece
      match d.dropWhile inPiece with
      | [] => none
      | t :: rest =>
        if t = 36 then
          match __find_last (s0.drop s) temp with
          | none => some false
          | some k =>
            if mark = 94 ∧ s + k ≠ 0 then some false
            else if s + k + temp.length ≠ s0.length then some false
            else some true
        else
          match __find_first (s0.drop s) temp with
          | none => some false
          | some k =>
            if mark = 94 ∧ s + k ≠ 0 then some false
            else strpatLoop s0 fuel (s + k + temp.length) (t :: rest)
    else strpatLoop s0 fuel s (mark :: d)

def strpat (s0 d0 : Str) : Option Bool :=
  if d0.length + 3 > 128 then none else strpatLoop s0 (d0.length + 2) 0 (94 :: (d0 ++ [36]))

theorem agree_iff {s d : Str} : agree s d = true ↔ Fits 63 d s := by
  fun_induction agree s d with
  | case1 s => exact ⟨fun _ => True.intro, fun _ => rfl⟩
  | case2 => exact ⟨fun held => absurd held (by decide), False.elim⟩
  | case3 p s q d same ih =>
    rw [ih]
    exact ⟨fun held => ⟨same, held⟩, And.right⟩
  | case4 p s q d other => exact ⟨fun held => absurd held (by decide), fun held => absurd held.1 other⟩

theorem firstLoop_some {q : UInt8} {d s : Str} {i n : Nat} (found : firstLoop q d i s = some n) :
    ∃ k, n = i + k ∧ k ≤ s.length ∧ Fits 63 (q :: d) (s.drop k) ∧ ∀ j < k, ¬ Fits 63 (q :: d) (s.drop j) := by
  induction s generalizing i with
  | nil => exact absurd found (by simp [firstLoop])
  | cons c s ih =>
    rw [firstLoop] at found
    split at found
    next fits =>
      cases found
      exact ⟨0, rfl, Nat.zero_le _, ⟨fits.1, agree_iff.mp fits.2⟩, fun j less =>
        absurd less (Nat.not_lt_zero j)⟩
    next no =>
      obtain ⟨k, rfl, inside, fits, least⟩ := ih found
      refine ⟨k + 1, by omega, Nat.succ_le_succ inside, fits, fun j less => ?_⟩
      cases j with
      | zero => exact fun held => no ⟨held.1, agree_iff.mpr held.2⟩
      | succ j => exact least j (Nat.lt_of_succ_lt_succ less)

theorem firstLoop_none {q : UInt8} {d s : Str} {i : Nat} (found : firstLoop q d i s = none) :
    ∀ k ≤ s.length, ¬ Fits 63 (q :: d) (s.drop k) := by
  induction s generalizing i with
  | nil =>
    intro k _
    rw [List.drop_nil]
    exact id
  | cons c s ih =>
    rw [firstLoop] at found
    split at found
    · exact absurd found (by simp)
    next no =>
      intro k inside
      cases k with
      | zero => exact fun held => no ⟨held.1, agree_iff.mpr held.2⟩
      | succ k => exact ih found k (Nat.le_of_succ_le_succ inside)

theorem find_first_some {s d : Str} {k : Nat} (found : __find_first s d = some k) :
    k ≤ s.length ∧ Fits 63 d (s.drop k) ∧ ∀ j < k, ¬ Fits 63 d (s.drop j) := by
  cases d with
  | nil =>
    cases found
    exact ⟨Nat.zero_le _, True.intro, fun j less => absurd less (Nat.not_lt_zero j)⟩
  | cons q d =>
    obtain ⟨k', rfl, held⟩ := firstLoop_some found
    rwa [Nat.zero_add]

theorem find_first_none {s d : Str} (found : __find_first s d = none) :
    ∀ k ≤ s.length, ¬ Fits 63 d (s.drop k) := by
  cases d with
  | nil => exact absurd found (by simp [__find_first])
  | cons q d => exact firstLoop_none found

theorem lastLoop_cases (q : UInt8) (d s : Str) (i : Nat) (maybe : Option Nat) :
    (∃ k, lastLoop q d i maybe s = some (i + k) ∧ k ≤ s.length ∧ Fits 63 (q :: d) (s.drop k) ∧
      ∀ j ≤ s.length, k < j → ¬ Fits 63 (q :: d) (s.drop j)) ∨
    (lastLoop q d i maybe s = maybe ∧ ∀ k ≤ s.length, ¬ Fits 63 (q :: d) (s.drop k)) := by
  induction s generalizing i maybe with
  | nil =>
    refine .inr ⟨rfl, fun k _ => ?_⟩
    rw [List.drop_nil]
    exact id
  | cons c s ih =>
    rw [lastLoop]
    rcases ih (i + 1) (if (c = q ∨ q = 63) ∧ agree s d then some i else maybe) with
      ⟨k, found, inside, fits, most⟩ | ⟨found, nowhere⟩
    · refine .inl ⟨k + 1, by
        rw [found, Nat.add_assoc, Nat.add_comm 1], Nat.succ_le_succ inside, fits, fun j within more => ?_⟩
      cases j with
      | zero => exact absurd more (Nat.not_lt_zero _)
      | succ j => exact most j (Nat.le_of_succ_le_succ within) (Nat.lt_of_succ_lt_succ more)
    · rw [found]
      split
      next fits =>
        refine .inl ⟨0, rfl, Nat.zero_le _, ⟨fits.1, agree_iff.mp fits.2⟩, fun j within more => ?_⟩
        cases j with
        | zero => exact absurd more (Nat.lt_irrefl 0)
        | succ j => exact nowhere j (Nat.le_of_succ_le_succ within)
      next no =>
        refine .inr ⟨rfl, fun k within => ?_⟩
        cases k with
        | zero => exact fun held => no ⟨held.1, agree_iff.mpr held.2⟩
        | succ k => exact nowhere k (Nat.le_of_succ_le_succ within)

theorem find_last_cases (s d : Str) :
    (∃ k, __find_last s d = some k ∧ k ≤ s.length ∧ Fits 63 d (s.drop k) ∧ ∀ j ≤ s.length, k < j →
      ¬ Fits 63 d (s.drop j)) ∨
    (__find_last s d = none ∧ ∀ k ≤ s.length, ¬ Fits 63 d (s.drop k)) := by
  cases d with
  | nil => exact .inl ⟨s.length, rfl, Nat.le_refl _, True.intro, fun j within more => by omega⟩
  | cons q d =>
    have found := lastLoop_cases q d s 0 none
    simp only [Nat.zero_add] at found
    exact found

theorem pieces {d : Str} (unmarked : 36 ∉ d) :
    (42 ∉ d ∧ (d ++ [36]).takeWhile inPiece = d ∧ (d ++ [36]).dropWhile inPiece = [36]) ∨
    ∃ temp rest, d = temp ++ 42 :: rest ∧ 42 ∉ temp ∧ (d ++ [36]).takeWhile inPiece = temp ∧
      (d ++ [36]).dropWhile inPiece = 42 :: (rest ++ [36]) := by
  have kept : ∀ {temp : Str}, 42 ∉ temp → 36 ∉ temp → ∀ c ∈ temp, inPiece c = true := by
    intro temp starless plain c held
    simp only [inPiece, Bool.and_eq_true, decide_eq_true_eq]
    exact ⟨fun same => starless (same ▸ held), fun same => plain (same ▸ held)⟩
  by_cases star : 42 ∈ d
  · obtain ⟨temp, rest, rfl, starless⟩ := List.eq_append_cons_of_mem star
    have all := kept starless fun held => unmarked (List.mem_append_left _ held)
    refine .inr ⟨temp, rest, rfl, starless, ?_, ?_⟩
    · rw [List.append_assoc, List.takeWhile_append_of_pos all, List.cons_append,
        List.takeWhile_cons_of_neg (by decide),
        List.append_nil]
    · rw [List.append_assoc, List.dropWhile_append_of_pos all, List.cons_append,
        List.dropWhile_cons_of_neg (by decide)]
  · have all := kept star unmarked
    refine .inl ⟨star, ?_, ?_⟩
    · rw [List.takeWhile_append_of_pos all, List.takeWhile_cons_of_neg (by decide), List.append_nil]
    · rw [List.dropWhile_append_of_pos all, List.dropWhile_cons_of_neg (by decide)]

theorem strpatLoop_star {s0 d : Str} {fuel s : Nat} (unmarked : 36 ∉ d) (inside : s ≤ s0.length)
    (enough : d.length < fuel) :
    ∃ answer, strpatLoop s0 fuel s (42 :: (d ++ [36])) = some answer ∧
      (answer = true ↔ Matches 42 63 (42 :: d) (s0.drop s)) := by
  induction fuel generalizing s d with
  | zero => exact absurd enough (Nat.not_lt_zero _)
  | succ fuel ih =>
    have length : (s0.drop s).length = s0.length - s := List.length_drop
    rw [strpatLoop, if_pos (.inr rfl)]
    rcases pieces unmarked with ⟨starless, taken, dropped⟩ | ⟨temp, rest, rfl, starless, taken, dropped⟩
    · simp only [taken, dropped, if_true]
      rcases find_last_cases (s0.drop s) d with ⟨k, found, within, fits, most⟩ | ⟨found, nowhere⟩
      · simp only [found, show ¬ (42 : UInt8) = 94 by decide, false_and, if_false]
        have last := matches_last starless within fits most
        by_cases ends : s + k + d.length = s0.length
        · exact ⟨true, if_neg fun no => no ends, by rw [last]; exact ⟨fun _ => by omega, fun _ => rfl⟩⟩
        · exact ⟨false, if_pos ends, by
            rw [last]; exact ⟨fun no => absurd no (by decide), fun same => absurd same (by omega)⟩⟩
      · simp only [found]
        have missed := matches_nowhere (p := []) starless nowhere
        rw [List.append_nil] at missed
        exact ⟨false, rfl, fun no => absurd no (by decide), fun held => absurd held missed⟩
    · simp only [taken, dropped, show ¬ (42 : UInt8) = 36 by decide, if_false]
      cases found : __find_first (s0.drop s) temp with
      | none =>
        have missed := matches_nowhere (p := 42 :: rest) starless (find_first_none found)
        exact ⟨false, rfl, fun no => absurd no (by decide), fun held => absurd held missed⟩
      | some k =>
        obtain ⟨within, fits, least⟩ := find_first_some found
        have fit := fits.length_le
        rw [List.length_drop] at fit
        simp only [show ¬ (42 : UInt8) = 94 by decide, false_and, if_false]
        rw [matches_first starless within fits least, List.drop_drop, ← Nat.add_assoc]
        rw [List.length_append, List.length_cons] at enough
        exact ih (fun held => unmarked (List.mem_append_right _ (List.mem_cons_of_mem _ held)))
          (by omega) (by omega)

/-- The first piece must stand at the beginning of the subject. -/
theorem strpat_answers {s0 d0 : Str} (short : d0.length < 126) (unmarked : 36 ∉ d0) :
    ∃ answer, strpat s0 d0 = some answer ∧ (answer = true ↔ Matches 42 63 d0 s0) := by
  rw [strpat, if_neg (by omega), strpatLoop, if_pos (.inl rfl), List.drop_zero]
  rcases pieces unmarked with ⟨starless, taken, dropped⟩ | ⟨temp, rest, rfl, starless, taken, dropped⟩
  · simp only [taken, dropped, if_true]
    have whole : Matches 42 63 d0 s0 ↔ Fits 63 d0 s0 ∧ d0.length = s0.length := by
      have split := @matches_append _ 42 63 d0 [] s0 starless
      rw [List.append_nil, matches_nil, List.drop_eq_nil_iff] at split
      rw [split]
      exact ⟨fun held => ⟨held.1, Nat.le_antisymm held.1.length_le held.2⟩, fun held =>
        ⟨held.1, Nat.le_of_eq held.2.symm⟩⟩
    rw [whole]
    rcases find_last_cases s0 d0 with ⟨k, found, within, fits, most⟩ | ⟨found, nowhere⟩
    · have length := fits.length_le
      rw [List.length_drop] at length
      simp only [found, Nat.zero_add, true_and]
      by_cases moved : k ≠ 0
      · exact ⟨false, if_pos moved, fun no => absurd no (by decide), fun held => absurd held.2 (by omega)⟩
      · obtain rfl : k = 0 := not_not.mp moved
        rw [if_neg moved, Nat.zero_add]
        by_cases ends : d0.length = s0.length
        · exact ⟨true, if_neg fun no => no ends, fun _ => ⟨fits, ends⟩, fun _ => rfl⟩
        · exact ⟨false, if_pos ends, fun no => absurd no (by decide), fun held => absurd held.2 ends⟩
    · simp only [found]
      exact ⟨false, rfl, fun no => absurd no (by decide), fun held =>
        absurd held.1 (nowhere 0 (Nat.zero_le _))⟩
  · simp only [taken, dropped, show ¬ (42 : UInt8) = 36 by decide, if_false]
    rw [matches_append starless]
    cases found : __find_first s0 temp with
    | none =>
      exact ⟨false, rfl, fun no => absurd no (by decide), fun held =>
        absurd held.1 (find_first_none found 0 (Nat.zero_le _))⟩
    | some k =>
      obtain ⟨within, fits, least⟩ := find_first_some found
      have fit := fits.length_le
      rw [List.length_drop] at fit
      simp only [Nat.zero_add, true_and]
      by_cases moved : k ≠ 0
      · exact ⟨false, if_pos moved, fun no => absurd no (by decide), fun held =>
          absurd held.1 (least 0 (Nat.pos_of_ne_zero moved))⟩
      · obtain rfl : k = 0 := not_not.mp moved
        rw [if_neg moved, Nat.zero_add]
        rw [List.length_append, List.length_cons]
        obtain ⟨answer, runs, right⟩ := @strpatLoop_star s0 rest
          (temp.length + (rest.length + 1) + 1) temp.length
          (fun held => unmarked (List.mem_append_right _ (List.mem_cons_of_mem _ held))) (by omega) (by omega)
        exact ⟨answer, runs, by rw [right]; exact ⟨fun held => ⟨fits, held⟩, And.right⟩⟩

theorem middle_star : ∃ answer, strpat [97, 98, 99] [97, 42, 99] = some answer ∧
    (answer = true ↔ Matches (42 : UInt8) 63 [97, 42, 99] [97, 98, 99]) :=
  @strpat_answers [97, 98, 99] [97, 42, 99] (by decide) (by decide)

theorem fits_prefix {piece s : Str} (plain : 63 ∉ piece) : Fits 63 piece s ↔ piece.isPrefixOf s = true := by
  induction piece generalizing s with
  | nil => exact ⟨fun _ => rfl, fun _ => True.intro⟩
  | cons q piece ih =>
    have other : q ≠ 63 := fun same => plain (same ▸ List.mem_cons_self)
    cases s with
    | nil => exact ⟨False.elim, fun held => absurd held (by simp)⟩
    | cons c s =>
      rw [Fits, ih fun held => plain (List.mem_cons_of_mem q held), List.isPrefixOf,
        Bool.and_eq_true, beq_iff_eq, or_iff_left other,
        eq_comm]

theorem strpat_leading {s piece : Str} (short : piece.length < 125) (starless : 42 ∉ piece)
    (plain : 63 ∉ piece)
    (unmarked : 36 ∉ piece) : strpat s (piece ++ [42]) = some (piece.isPrefixOf s) := by
  have length : (piece ++ [42]).length < 126 := by
    rw [List.length_append, List.length_singleton]
    omega
  obtain ⟨answer, runs, right⟩ := @strpat_answers s (piece ++ [42]) length fun held =>
    (List.mem_append.mp held).elim unmarked fun held => absurd (List.mem_singleton.mp held) (by decide)
  have rest : Matches 42 63 [42] (s.drop piece.length) :=
    matches_star.mpr ⟨_, Nat.le_refl _, by rw [List.drop_length]; exact .nil⟩
  rw [runs, Option.some.injEq, Bool.eq_iff_iff, right, matches_append starless, ← fits_prefix plain]
  exact and_iff_left rest

end Embryo.Lib
