import Mathlib

namespace Embryo.Machine

variable {α κ : Type} [LinearOrder κ]

/-- `w` is the first among the elements of the least rank; an element without a rank does not count. -/
def Earliest (rank : α → Option κ) (xs : List α) (w : α) : Prop :=
  ∃ k before after, xs = before ++ w :: after ∧ rank w = some k ∧
    (∀ v ∈ before, ∀ j, rank v = some j → k < j) ∧ ∀ v ∈ after, ∀ j, rank v = some j → k ≤ j

def bestFrom (leave : κ → Bool) (rank : α → Option κ) : List α → κ → Option α → Option α
  | [], _, best => best
  | x :: rest, bound, best =>
    match rank x with
    | none => bestFrom leave rank rest bound best
    | some k =>
      if k < bound then
        if leave k then some x else bestFrom leave rank rest k (some x)
      else bestFrom leave rank rest bound best

variable {leave : κ → Bool} {rank : α → Option κ} {xs : List α} {w : α}

theorem Earliest.mem (first : Earliest rank xs w) : w ∈ xs := by
  obtain ⟨_, before, after, rfl, _⟩ := first
  exact List.mem_append_right _ List.mem_cons_self

theorem Earliest.least (first : Earliest rank xs w) {v : α} (member : v ∈ xs) {j k : κ}
    (ranked : rank v = some j) (own : rank w = some k) : k ≤ j := by
  obtain ⟨k', before, after, rfl, known, sooner, later⟩ := first
  have same : k' = k := Option.some.inj (known.symm.trans own)
  subst same
  rcases List.mem_append.mp member with member | member
  · exact (sooner v member j ranked).le
  · rcases List.mem_cons.mp member with rfl | member
    · exact (Option.some.inj (own.symm.trans ranked)).le
    · exact later v member j ranked

theorem Earliest.exists {v : α} (member : v ∈ xs) (ranked : (rank v).isSome = true) :
    ∃ w, Earliest rank xs w := by
  induction xs generalizing v with
  | nil => cases member
  | cons x xs ih =>
    by_cases more : ∃ u ∈ xs, (rank u).isSome = true
    · obtain ⟨u, inside, given⟩ := more
      obtain ⟨w, k, before, after, rfl, own, sooner, later⟩ := ih inside given
      cases first : rank x with
      | none =>
        refine ⟨w, k, x :: before, after, rfl, own, ?_, later⟩
        intro y held j known
        rcases List.mem_cons.mp held with rfl | held
        · rw [first] at known
          cases known
        · exact sooner y held j known
      | some i =>
        by_cases less : k < i
        · refine ⟨w, k, x :: before, after, rfl, own, ?_, later⟩
          intro y held j known
          rcases List.mem_cons.mp held with rfl | held
          · rw [first] at known
            cases known
            exact less
          · exact sooner y held j known
        · have le : i ≤ k := not_lt.mp less
          refine ⟨x, i, [], _, rfl, first, nofun, ?_⟩
          intro y held j known
          rcases List.mem_append.mp held with held | held
          · exact le.trans (sooner y held j known).le
          · rcases List.mem_cons.mp held with rfl | held
            · rw [own] at known
              cases known
              exact le
            · exact le.trans (later y held j known)
    · have here : v = x := by
        rcases List.mem_cons.mp member with same | inside
        · exact same
        · exact absurd ⟨v, inside, ranked⟩ more
      rw [here] at ranked
      obtain ⟨i, first⟩ := Option.isSome_iff_exists.mp ranked
      refine ⟨x, i, [], xs, rfl, first, nofun, ?_⟩
      intro y held j known
      exact absurd ⟨y, held, by rw [known]; rfl⟩ more

theorem bestFrom_kept {bound : κ} (above : ∀ v ∈ xs, ∀ j, rank v = some j → bound ≤ j) (best : Option α) :
    bestFrom leave rank xs bound best = best := by
  induction xs with
  | nil => rfl
  | cons x xs ih =>
    have rest := ih fun v member => above v (List.mem_cons_of_mem _ member)
    rw [bestFrom]
    split
    · exact rest
    · rename_i k known
      rw [if_neg (not_lt.mpr (above x List.mem_cons_self k known))]
      exact rest

theorem bestFrom_earliest (final : ∀ k, leave k = true → ∀ j, k ≤ j) {bound k : κ}
    (first : Earliest rank xs w) (own : rank w = some k) (below : k < bound) (best : Option α) :
    bestFrom leave rank xs bound best = some w := by
  obtain ⟨k', before, after, rfl, known, sooner, later⟩ := first
  have same : k' = k := Option.some.inj (known.symm.trans own)
  subst same
  induction before generalizing bound best with
  | nil =>
    rw [List.nil_append, bestFrom]
    simp only [own, if_pos below]
    split
    · rfl
    · exact bestFrom_kept later _
  | cons x before ih =>
    have rest := fun bound best => @ih bound best fun v member => sooner v (List.mem_cons_of_mem _ member)
    rw [List.cons_append, bestFrom]
    split
    · exact rest bound best below
    · rename_i j ranked
      have less := sooner x List.mem_cons_self j ranked
      split
      · split
        · rename_i stop
          exact absurd (final j stop k') (not_le.mpr less)
        · exact rest j _ less
      · exact rest bound best below

end Embryo.Machine
