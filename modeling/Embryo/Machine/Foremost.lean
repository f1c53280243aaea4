import Mathlib

namespace Embryo.Machine

variable {α : Type} {good : α → Prop} {xs : List α}

def Foremost (good : α → Prop) (xs : List α) (x : α) : Prop :=
  ∃ before after, xs = before ++ x :: after ∧ good x ∧ ∀ y ∈ before, ¬ good y

def Searched (good : α → Prop) (xs : List α) (found : Option α) : Prop :=
  (found = none ↔ ∀ x ∈ xs, ¬ good x) ∧ ∀ x, found = some x → Foremost good xs x

theorem Foremost.behind {x y : α} (first : Foremost good xs y) (bad : ¬ good x) :
    Foremost good (x :: xs) y := by
  obtain ⟨before, after, rfl, here, sooner⟩ := first
  refine ⟨x :: before, after, rfl, here, ?_⟩
  intro z member
  rcases List.mem_cons.mp member with rfl | member
  · exact bad
  · exact sooner z member

theorem Foremost.head {x y : α} (first : Foremost good (x :: xs) y) (holds : good x) : y = x := by
  obtain ⟨_ | ⟨z, before⟩, after, parts, here, sooner⟩ := first
  · exact (List.cons.inj parts).1.symm
  · obtain ⟨rfl, _⟩ := List.cons.inj parts
    exact absurd holds (sooner x List.mem_cons_self)

theorem Foremost.tail {x y : α} (first : Foremost good (x :: xs) y) (bad : ¬ good x) :
    Foremost good xs y := by
  obtain ⟨_ | ⟨z, before⟩, after, parts, here, sooner⟩ := first
  · rw [(List.cons.inj parts).1] at bad
    exact absurd here bad
  · obtain ⟨rfl, rfl⟩ := List.cons.inj parts
    exact ⟨before, after, rfl, here, fun z member => sooner z (List.mem_cons_of_mem x member)⟩

theorem searched_cons {x : α} {found : Option α} (bad : ¬ good x) :
    Searched good (x :: xs) found ↔ Searched good xs found := by
  have none : (∀ y ∈ x :: xs, ¬ good y) ↔ ∀ y ∈ xs, ¬ good y := by
    rw [List.forall_mem_cons]
    exact and_iff_right bad
  rw [Searched, Searched, none]
  refine and_congr_right fun _ => forall_congr' fun y => imp_congr_right fun _ => ?_
  exact ⟨fun first => first.tail bad, fun first => first.behind bad⟩

/-- A search by a test `p` gives the first good element exactly when the test is right about each
    element up to there. -/
theorem find_searched_iff (p : α → Bool) : Searched good xs (xs.find? p) ↔
    ∀ before x after, xs = before ++ x :: after → (∀ y ∈ before, ¬ good y) → (p x = true ↔ good x) := by
  induction xs with
  | nil =>
    refine iff_of_true ⟨iff_of_true rfl nofun, nofun⟩ ?_
    intro before x after parts
    exact absurd parts.symm (by simp)
  | cons x xs ih =>
    by_cases holds : good x
    · constructor
      · intro searched before y after parts sooner
        obtain _ | ⟨z, before⟩ := before
        · obtain ⟨rfl, rfl⟩ := List.cons.inj parts
          refine iff_of_true ?_ holds
          cases found : (x :: xs).find? p with
          | none => exact absurd holds (searched.1.mp found x List.mem_cons_self)
          | some y =>
            have first := (searched.2 y found).head holds
            subst first
            exact List.find?_some found
        · obtain ⟨rfl, _⟩ := List.cons.inj parts
          exact absurd holds (sooner x List.mem_cons_self)
      · intro right
        have tested := (right [] x xs rfl nofun).mpr holds
        rw [List.find?_cons_of_pos tested]
        refine ⟨iff_of_false nofun fun none => none x List.mem_cons_self holds, ?_⟩
        rintro y ⟨⟩
        exact ⟨[], xs, rfl, holds, nofun⟩
    · constructor
      · intro searched
        have failed : ¬ p x = true := by
          intro tested
          rw [List.find?_cons_of_pos tested] at searched
          obtain ⟨before, after, _, here, _⟩ := searched.2 x rfl
          exact holds here
        rw [List.find?_cons_of_neg failed, searched_cons holds, ih] at searched
        intro before y after parts sooner
        obtain _ | ⟨z, before⟩ := before
        · obtain ⟨rfl, rfl⟩ := List.cons.inj parts
          exact iff_of_false failed holds
        · obtain ⟨rfl, rfl⟩ := List.cons.inj parts
          exact searched before y after rfl fun w member => sooner w (List.mem_cons_of_mem x member)
      · intro right
        have failed : ¬ p x = true := fun tested => holds ((right [] x xs rfl nofun).mp tested)
        rw [List.find?_cons_of_neg failed, searched_cons holds, ih]
        intro before y after parts sooner
        apply right (x :: before) y after (by rw [parts, List.cons_append])
        intro w member
        rcases List.mem_cons.mp member with rfl | member
        · exact holds
        · exact sooner w member

end Embryo.Machine
