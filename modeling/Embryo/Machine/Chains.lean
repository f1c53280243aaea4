import Mathlib

namespace Embryo.Machine

variable {ι α : Type} [DecidableEq ι] [DecidableEq α]

abbrev Chains (ι α : Type) := ι → List α

def Chains.del (c : Chains ι α) (x : α) : Chains ι α := fun i => (c i).erase x

def Chains.add (c : Chains ι α) (i : ι) (x : α) : Chains ι α := Function.update c i (x :: c i)

/-- Every node of `live` is on one list, once, namely on that of its key; no other node is on any. -/
def Chains.Filed (c : Chains ι α) (live : Finset α) (key : α → ι) : Prop :=
  ∀ x i, (c i).count x = if x ∈ live ∧ i = key x then 1 else 0

structure Chains.Loose (c : Chains ι α) (live : Finset α) (key : α → ι) (x : α) : Prop where
  others : ∀ y ≠ x, ∀ i, (c i).count y = if y ∈ live ∧ i = key y then 1 else 0
  own : ∀ i, (c i).count x ≤ 1

variable {c : Chains ι α} {live : Finset α} {key key' : α → ι} {x y : α} {i : ι}

omit [DecidableEq ι] in
theorem Chains.count_del_self (c : Chains ι α) (x : α) (i : ι) : (c.del x i).count x = (c i).count x - 1 :=
  List.count_erase_self

omit [DecidableEq ι] in
theorem Chains.count_del_of_ne (c : Chains ι α) (different : y ≠ x) (i : ι) :
    (c.del x i).count y = (c i).count y :=
  List.count_erase_of_ne different

theorem Chains.count_add_self (c : Chains ι α) (i j : ι) (x : α) :
    (c.add i x j).count x = (c j).count x + if j = i then 1 else 0 := by
  unfold Chains.add
  by_cases here : j = i
  · rw [here, Function.update_self, List.count_cons_self, if_pos rfl]
  · rw [Function.update_of_ne here, if_neg here, Nat.add_zero]

theorem Chains.count_add_of_ne (c : Chains ι α) (different : y ≠ x) (i j : ι) :
    (c.add i x j).count y = (c j).count y := by
  unfold Chains.add
  by_cases here : j = i
  · rw [here, Function.update_self, List.count_cons_of_ne (Ne.symm different)]
  · rw [Function.update_of_ne here]

theorem Chains.found_key (once : (c i).count y = if y ∈ live ∧ i = key y then 1 else 0) (found : y ∈ c i) :
    y ∈ live ∧ i = key y := by
  by_contra wrong
  have positive := List.count_pos_iff.mpr found
  rw [once, if_neg wrong] at positive
  exact Nat.lt_irrefl 0 positive

theorem Chains.Filed.loosen (filed : c.Filed live key) (same : ∀ y ≠ x, key' y = key y) :
    c.Loose live key' x := by
  constructor
  · intro y different i
    rw [filed y i, same y different]
  · intro i
    rw [filed x i]
    split <;> omega

theorem Chains.Loose.rekey (loose : c.Loose live key x) (same : ∀ y ≠ x, key' y = key y) :
    c.Loose live key' x := by
  refine ⟨?_, loose.own⟩
  intro y different i
  rw [loose.others y different i, same y different]

theorem Chains.Loose.refile (loose : c.Loose live key x) (member : x ∈ live) :
    ((c.del x).add (key x) x).Filed live key := by
  intro y i
  by_cases same : y = x
  · subst same
    have own := loose.own i
    rw [Chains.count_add_self, Chains.count_del_self]
    by_cases here : i = key y
    · rw [if_pos here, if_pos ⟨member, here⟩]
      omega
    · rw [if_neg here, if_neg (fun both => here both.2)]
      omega
  · rw [Chains.count_add_of_ne _ same, Chains.count_del_of_ne c same, loose.others y same i]

theorem Chains.Loose.filed (loose : c.Loose live key x)
    (own : ∀ i, (c i).count x = if x ∈ live ∧ i = key x then 1 else 0) : c.Filed live key := by
  intro y i
  by_cases same : y = x
  · rw [same]
    exact own i
  · exact loose.others y same i

theorem Chains.Filed.promote (filed : c.Filed live key) (found : y ∈ c i) :
    ((c.del y).add i y).Filed live key := by
  obtain ⟨member, here⟩ := Chains.found_key (filed y i) found
  rw [here]
  exact (filed.loosen (fun _ _ => rfl)).refile member

theorem Chains.Loose.promote (loose : c.Loose live key x) (found : y ∈ c i) :
    ((c.del y).add i y).Loose live key x := by
  constructor
  · intro z different j
    rw [← loose.others z different j]
    by_cases mine : z = y
    · subst mine
      obtain ⟨_, here⟩ := Chains.found_key (loose.others z different i) found
      have once := loose.others z different j
      have positive := List.count_pos_iff.mpr found
      rw [Chains.count_add_self, Chains.count_del_self]
      by_cases there : j = i
      · rw [there, if_pos rfl]
        omega
      · rw [if_neg (fun both : z ∈ live ∧ j = key z => there (both.2.trans here.symm))] at once
        rw [once, if_neg there]
    · rw [Chains.count_add_of_ne _ mine, Chains.count_del_of_ne c mine]
  · intro j
    have own := loose.own j
    by_cases mine : x = y
    · subst mine
      rw [Chains.count_add_self, Chains.count_del_self]
      split <;> omega
    · rw [Chains.count_add_of_ne _ mine, Chains.count_del_of_ne c mine]
      exact own

theorem Chains.Filed.insert (filed : c.Filed live key) (fresh : x ∉ live) (same : ∀ y ≠ x, key' y = key y) :
    (c.add (key' x) x).Filed (insert x live) key' := by
  intro y i
  by_cases mine : y = x
  · subst mine
    rw [Chains.count_add_self, filed y i, if_neg (fun both => fresh both.1)]
    simp
  · rw [Chains.count_add_of_ne _ mine, filed y i, same y mine]
    simp [mine]

theorem Chains.Filed.erase (filed : c.Filed live key) : (c.del x).Filed (live.erase x) key := by
  intro y i
  by_cases mine : y = x
  · subst mine
    rw [Chains.count_del_self, filed y i]
    split <;> simp
  · rw [Chains.count_del_of_ne c mine, filed y i]
    simp [mine]

end Embryo.Machine
