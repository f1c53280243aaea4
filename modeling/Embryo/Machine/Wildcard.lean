import Mathlib.Data.List.Basic

namespace Embryo.Machine

variable {α : Type} (star any : α)

/-- A pattern stands for a whole subject: `star` for any sequence, and `any` for any one character. -/
inductive Matches : List α → List α → Prop
  | nil : Matches [] []
  | none {p s : List α} : Matches p s → Matches (star :: p) s
  | more {c : α} {p s : List α} : Matches (star :: p) s → Matches (star :: p) (c :: s)
  | one {q c : α} {p s : List α} : q ≠ star → c = q ∨ q = any → Matches p s → Matches (q :: p) (c :: s)

/-- A piece without `star` stands for the first characters of a subject. -/
def Fits (any : α) : List α → List α → Prop
  | [], _ => True
  | _ :: _, [] => False
  | q :: p, c :: s => (c = q ∨ q = any) ∧ Fits any p s

section

variable {star any : α} {piece p s : List α}

theorem Fits.length_le (fits : Fits any piece s) : piece.length ≤ s.length := by
  induction piece generalizing s with
  | nil => exact Nat.zero_le _
  | cons q piece ih =>
    cases s with
    | nil => exact fits.elim
    | cons c s => exact Nat.succ_le_succ (ih fits.2)

theorem matches_nil : Matches star any [] s ↔ s = [] := by
  constructor
  · intro held
    cases held
    rfl
  · rintro rfl
    exact .nil

theorem matches_append (starless : star ∉ piece) :
    Matches star any (piece ++ p) s ↔ Fits any piece s ∧ Matches star any p (s.drop piece.length) := by
  induction piece generalizing s with
  | nil => exact ⟨fun held => ⟨True.intro, held⟩, fun held => held.2⟩
  | cons q piece ih =>
    have other : q ≠ star := fun same => starless (same ▸ List.mem_cons_self)
    have rest : star ∉ piece := fun held => starless (List.mem_cons_of_mem q held)
    cases s with
    | nil =>
      constructor
      · intro held
        cases held
        exact absurd rfl other
      · exact fun held => held.1.elim
    | cons c s =>
      constructor
      · intro held
        cases held with
        | none | more => exact absurd rfl other
        | one _ same held =>
          obtain ⟨fits, held⟩ := (ih rest).mp held
          exact ⟨⟨same, fits⟩, held⟩
      · rintro ⟨⟨same, fits⟩, held⟩
        exact .one other same ((ih rest).mpr ⟨fits, held⟩)

theorem matches_star : Matches star any (star :: p) s ↔ ∃ k ≤ s.length, Matches star any p (s.drop k) := by
  induction s with
  | nil =>
    constructor
    · intro held
      cases held with
      | none held => exact ⟨0, Nat.le_refl 0, held⟩
    · rintro ⟨k, -, held⟩
      rw [List.drop_nil] at held
      exact .none held
  | cons c s ih =>
    constructor
    · intro held
      cases held with
      | none held => exact ⟨0, Nat.zero_le _, held⟩
      | more held =>
        obtain ⟨k, inside, held⟩ := ih.mp held
        exact ⟨k + 1, Nat.succ_le_succ inside, held⟩
      | one other => exact absurd rfl other
    · rintro ⟨k, inside, held⟩
      cases k with
      | zero => exact .none held
      | succ k => exact .more (ih.mpr ⟨k, Nat.le_of_succ_le_succ inside, held⟩)

theorem Matches.earlier {i j : Nat} (held : Matches star any (star :: p) (s.drop j)) (less : i ≤ j)
    (inside : j ≤ s.length) :
    Matches star any (star :: p) (s.drop i) := by
  obtain ⟨k, within, held⟩ := matches_star.mp held
  rw [List.drop_drop] at held
  rw [List.length_drop] at within
  refine matches_star.mpr ⟨j - i + k, by rw [List.length_drop]; omega, ?_⟩
  rw [List.drop_drop]
  rwa [show i + (j - i + k) = j + k by omega]

theorem matches_place (starless : star ∉ piece) :
    Matches star any (star :: (piece ++ p)) s ↔
      ∃ k ≤ s.length, Fits any piece (s.drop k) ∧ Matches star any p (s.drop (k + piece.length)) := by
  rw [matches_star]
  simp only [matches_append starless, List.drop_drop]

theorem matches_first {k : Nat} (starless : star ∉ piece) (inside : k ≤ s.length)
    (fits : Fits any piece (s.drop k)) (least : ∀ j < k, ¬ Fits any piece (s.drop j)) :
    Matches star any (star :: (piece ++ star :: p)) s ↔ Matches star any (star :: p)
    (s.drop (k + piece.length)) := by
  rw [matches_place starless]
  constructor
  · rintro ⟨j, within, fits', held⟩
    have later : k ≤ j := Nat.le_of_not_lt fun less => least j less fits'
    have length := fits'.length_le
    rw [List.length_drop] at length
    exact held.earlier (by omega) (by omega)
  · exact fun held => ⟨k, inside, fits, held⟩

theorem matches_last {k : Nat} (starless : star ∉ piece) (inside : k ≤ s.length)
    (fits : Fits any piece (s.drop k)) (most : ∀ j ≤ s.length, k < j → ¬ Fits any piece (s.drop j)) :
    Matches star any (star :: piece) s ↔ k + piece.length = s.length := by
  have length := fits.length_le
  rw [List.length_drop] at length
  rw [← List.append_nil piece, matches_place starless, List.append_nil]
  simp only [matches_nil, List.drop_eq_nil_iff]
  constructor
  · rintro ⟨j, within, fits', reach⟩
    have earlier : j ≤ k := Nat.le_of_not_lt fun more => most j within more fits'
    omega
  · exact fun same => ⟨k, inside, fits, by omega⟩

theorem matches_nowhere (starless : star ∉ piece) (nowhere : ∀ k ≤ s.length, ¬ Fits any piece (s.drop k)) :
    ¬ Matches star any (star :: (piece ++ p)) s := by
  rw [matches_place starless]
  rintro ⟨k, inside, fits, -⟩
  exact nowhere k inside fits

end

end Embryo.Machine
