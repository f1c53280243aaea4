import Mathlib

namespace Embryo.Machine

variable {α : Type}

def keepBest (better : α → α → Bool) (best : Option α) (x : α) : Option α :=
  match best with
  | none => some x
  | some b => if better x b then some x else some b

structure Maximal (better : α → α → Bool) (xs : List α) (best : α) : Prop where
  mem : best ∈ xs
  top : ∀ x ∈ xs, better x best = false

variable {better : α → α → Bool} {xs : List α}

theorem keepBest_some (best : Option α) (x : α) : (keepBest better best x).isSome = true := by
  unfold keepBest
  split
  · rfl
  · split <;> rfl

theorem foldl_keepBest_some (xs : List α) (b : α) : (xs.foldl (keepBest better) (some b)).isSome = true := by
  induction xs generalizing b with
  | nil => rfl
  | cons x xs ih =>
    obtain ⟨next, kept⟩ := Option.isSome_iff_exists.mp (@keepBest_some α better (some b) x)
    rw [List.foldl_cons, kept]
    exact ih next

theorem Maximal.step {b x : α} (maximal : Maximal better xs b) (irreflexive : ∀ y, better y y = false)
    (trans : ∀ y ∈ xs, better y x = true → better x b = true → better y b = true) :
    ∃ next, keepBest better (some b) x = some next ∧ Maximal better (xs ++ [x]) next := by
  rw [keepBest]
  cases wins : better x b with
  | true =>
    refine ⟨x, if_pos rfl, List.mem_append_right xs List.mem_cons_self, ?_⟩
    intro y member
    rcases List.mem_append.mp member with earlier | last
    · by_contra beats
      rw [Bool.not_eq_false] at beats
      have over_b := trans y earlier beats wins
      rw [maximal.top y earlier] at over_b
      cases over_b
    · rw [List.mem_singleton.mp last]
      exact irreflexive x
  | false =>
    refine ⟨b, if_neg Bool.false_ne_true, List.mem_append_left _ maximal.mem, ?_⟩
    intro y member
    rcases List.mem_append.mp member with earlier | last
    · exact maximal.top y earlier
    · rw [List.mem_singleton.mp last]
      exact wins

theorem foldl_maximal (irreflexive : ∀ y, better y y = false)
    (trans : ∀ x ∈ xs, ∀ y ∈ xs, ∀ z ∈ xs, better x y = true → better y z = true →
      better x z = true) {best : α}
    (found : xs.foldl (keepBest better) none = some best) : Maximal better xs best := by
  have prefixes : ∀ before after, xs = before ++ after → before ≠ [] →
      ∃ b, before.foldl (keepBest better) none = some b ∧ Maximal better before b := by
    intro before
    induction before using List.reverseRecOn with
    | nil => exact fun _ _ some => absurd rfl some
    | append_singleton before x ih =>
      intro after parts _
      rw [List.foldl_append, List.foldl_cons, List.foldl_nil]
      by_cases first : before = []
      · subst first
        refine ⟨x, rfl, List.mem_cons_self, fun y member => ?_⟩
        rw [List.mem_singleton.mp member]
        exact irreflexive x
      · rw [List.append_assoc] at parts
        obtain ⟨b, kept, maximal⟩ := ih ([x] ++ after) parts first
        rw [kept]
        apply maximal.step irreflexive
        intro y member
        have inside : ∀ z ∈ before, z ∈ xs := fun z here => parts ▸ List.mem_append_left _ here
        have here : x ∈ xs := parts ▸ List.mem_append_right before List.mem_cons_self
        exact trans y (inside y member) x here b (inside b maximal.mem)
  by_cases empty : xs = []
  · rw [empty] at found
    cases found
  · obtain ⟨b, kept, maximal⟩ := prefixes xs [] (List.append_nil xs).symm empty
    rw [kept] at found
    cases found
    exact maximal

end Embryo.Machine
