import Embryo.Exec.Elf

namespace Embryo.Exec

open Embryo.Machine

theorem lowestFrom_cases (tab : List Phdr) (i : Nat) (found : Option Nat) (lowestOff : Nat) :
    (lowestFrom tab i found lowestOff = found ∧ ∀ p ∈ tab, p.pType = ptLoad → lowestOff ≤ p.pOffset) ∨
      ∃ k p, lowestFrom tab i found lowestOff = some (i + k) ∧ tab[k]? = some p ∧ p.pType = ptLoad ∧
        p.pOffset < lowestOff ∧ ∀ q ∈ tab, q.pType = ptLoad → p.pOffset ≤ q.pOffset := by
  induction tab generalizing i found lowestOff with
  | nil =>
    left
    exact ⟨rfl, by simp⟩
  | cons p rest ih =>
    rw [lowestFrom]
    by_cases lower : p.pType = ptLoad ∧ p.pOffset < lowestOff
    · rw [if_pos lower]
      right
      rcases ih (i + 1) (some i) p.pOffset with ⟨kept, least⟩ | ⟨k, q, taken, entry, load, less, least⟩
      · refine ⟨0, p, kept, rfl, lower.1, lower.2, ?_⟩
        intro q member load
        rcases List.mem_cons.mp member with rfl | member
        · exact Nat.le_refl _
        · exact least q member load
      · refine ⟨k + 1, q, by rw [taken]; congr 1; omega, entry, load, Nat.lt_trans less lower.2, ?_⟩
        intro r member load
        rcases List.mem_cons.mp member with rfl | member
        · exact Nat.le_of_lt less
        · exact least r member load
    · rw [if_neg lower]
      have above : p.pType = ptLoad → lowestOff ≤ p.pOffset := by
        intro load
        by_contra below
        exact lower ⟨load, Nat.lt_of_not_le below⟩
      rcases ih (i + 1) found lowestOff with ⟨kept, least⟩ | ⟨k, q, taken, entry, load, less, least⟩
      · left
        refine ⟨kept, ?_⟩
        intro q member load
        rcases List.mem_cons.mp member with rfl | member
        · exact above load
        · exact least q member load
      · right
        refine ⟨k + 1, q, by rw [taken]; congr 1; omega, entry, load, less, ?_⟩
        intro r member load
        rcases List.mem_cons.mp member with rfl | member
        · exact Nat.le_trans (Nat.le_of_lt less) (above load)
        · exact least r member load

def Findable (lay : Layout) (p : Phdr) : Prop := p.pType = ptLoad ∧ p.pOffset < topOff lay

instance (lay : Layout) (p : Phdr) : Decidable (Findable lay p) := inferInstanceAs (Decidable (_ ∧ _))

theorem lowest_cases (lay : Layout) (tab : List Phdr) :
    (lowest lay tab = none ∧ ∀ p ∈ tab, ¬ Findable lay p) ∨
      ∃ i p, lowest lay tab = some i ∧ tab[i]? = some p ∧ Findable lay p ∧
        ∀ q ∈ tab, q.pType = ptLoad → p.pOffset ≤ q.pOffset := by
  rcases lowestFrom_cases tab 0 none (topOff lay) with ⟨none', least⟩
    | ⟨k, p, taken, entry, load, less, least⟩
  · left
    refine ⟨none', ?_⟩
    intro p member findable
    exact absurd (least p member findable.1) (Nat.not_le_of_lt findable.2)
  · right
    rw [Nat.zero_add] at taken
    exact ⟨k, p, taken, entry, ⟨load, less⟩, least⟩

def retired (tab : List Phdr) (i : Nat) : List Phdr := tab.modify i fun p => { p with pType := ptNull }

@[simp] theorem retired_length (tab : List Phdr) (i : Nat) : (retired tab i).length = tab.length :=
  List.length_modify _ _ _

theorem not_findable_null (lay : Layout) (p : Phdr) : ¬ Findable lay { p with pType := ptNull } := by
  intro findable
  exact absurd findable.1 (by decide : ptNull ≠ ptLoad)

theorem retired_findable {lay : Layout} {tab : List Phdr} {i j : Nat} {p : Phdr} :
    (retired tab i)[j]? = some p ∧ Findable lay p ↔ j ≠ i ∧ tab[j]? = some p ∧ Findable lay p := by
  unfold retired
  rw [List.getElem?_modify]
  by_cases same : i = j
  · subst same
    simp only [if_true, Option.map_eq_map, Option.map_eq_some_iff, ne_eq, not_true_eq_false,
      false_and, iff_false]
    intro ⟨⟨q, _, null⟩, findable⟩
    subst null
    exact not_findable_null lay q findable
  · simp [same, Ne.symm same]

def findables (lay : Layout) (tab : List Phdr) : Nat := tab.countP (Findable lay ·)

theorem findables_retired {lay : Layout} {tab : List Phdr} {i : Nat} {p : Phdr} (entry : tab[i]? = some p)
    (findable : Findable lay p) : findables lay (retired tab i) + 1 = findables lay tab := by
  unfold findables retired
  induction tab generalizing i with
  | nil => cases entry
  | cons q rest ih =>
    cases i with
    | zero =>
      simp only [List.getElem?_cons_zero, Option.some.injEq] at entry
      subst entry
      have null := not_findable_null lay q
      rw [List.modify_zero_cons, List.countP_cons_of_neg (by simpa using null),
        List.countP_cons_of_pos (by simpa using findable)]
    | succ i =>
      rw [List.getElem?_cons_succ] at entry
      rw [List.modify_succ_cons, List.countP_cons, List.countP_cons, ← ih entry]
      omega

def loadOrder (lay : Layout) : Nat → List Phdr → List (Nat × Phdr)
  | 0, _ => []
  | n + 1, tab =>
    match lowest lay tab with
    | none => []
    | some i =>
      match tab[i]? with
      | none => []
      | some p => (i, p) :: loadOrder lay n (retired tab i)

theorem loadOrder_none {lay : Layout} {tab : List Phdr} (stopped : lowest lay tab = none) (n : Nat) :
    loadOrder lay n tab = [] := by
  cases n with
  | zero => rfl
  | succ n => rw [loadOrder, stopped]

theorem loadOrder_some {lay : Layout} {tab : List Phdr} {i n : Nat} {p : Phdr}
    (next : lowest lay tab = some i)
    (entry : tab[i]? = some p) : loadOrder lay (n + 1) tab = (i, p) :: loadOrder lay n (retired tab i) := by
  simp only [loadOrder, next, entry]

theorem mem_loadOrder {lay : Layout} {n : Nat} {tab : List Phdr} (enough : findables lay tab ≤ n)
    (i : Nat) (p : Phdr) :
    (i, p) ∈ loadOrder lay n tab ↔ tab[i]? = some p ∧ Findable lay p := by
  induction n generalizing tab with
  | zero =>
    have zero : findables lay tab = 0 := Nat.le_zero.mp enough
    unfold findables at zero
    rw [List.countP_eq_zero] at zero
    simp only [loadOrder, List.not_mem_nil, false_iff, not_and]
    intro entry findable
    exact zero p (List.mem_of_getElem? entry) (decide_eq_true findable)
  | succ n ih =>
    rcases lowest_cases lay tab with ⟨stopped, unfindable⟩ | ⟨k, q, next, entry, findable, least⟩
    · rw [loadOrder_none stopped]
      simp only [List.not_mem_nil, false_iff, not_and]
      intro entry
      exact unfindable p (List.mem_of_getElem? entry)
    · have fewer := findables_retired entry findable
      rw [loadOrder_some next entry, List.mem_cons, ih (by omega), retired_findable]
      by_cases same : i = k
      · subst same
        simp only [Prod.mk.injEq, true_and, ne_eq, not_true_eq_false, false_and, or_false]
        constructor
        · rintro rfl
          exact ⟨entry, findable⟩
        · intro ⟨found, _⟩
          exact Option.some.inj (found.symm.trans entry)
      · simp [same]

theorem loadOrder_nodup {lay : Layout} {n : Nat} {tab : List Phdr} (enough : findables lay tab ≤ n) :
    ((loadOrder lay n tab).map Prod.fst).Nodup := by
  induction n generalizing tab with
  | zero => exact List.nodup_nil
  | succ n ih =>
    rcases lowest_cases lay tab with ⟨stopped, _⟩ | ⟨k, q, next, entry, findable, _⟩
    · rw [loadOrder_none stopped]
      exact List.nodup_nil
    · have fewer := findables_retired entry findable
      rw [loadOrder_some next entry, List.map_cons, List.nodup_cons]
      refine ⟨?_, ih (by omega)⟩
      intro member
      obtain ⟨⟨i, p⟩, member, same⟩ := List.mem_map.mp member
      have again := (retired_findable.mp ((mem_loadOrder (by omega) i p).mp member)).1
      exact again same

theorem loadOrder_sorted {lay : Layout} {n : Nat} {tab : List Phdr} (enough : findables lay tab ≤ n) :
    (loadOrder lay n tab).Pairwise fun x y => x.2.pOffset ≤ y.2.pOffset := by
  induction n generalizing tab with
  | zero => exact List.Pairwise.nil
  | succ n ih =>
    rcases lowest_cases lay tab with ⟨stopped, _⟩ | ⟨k, q, next, entry, findable, least⟩
    · rw [loadOrder_none stopped]
      exact List.Pairwise.nil
    · have fewer := findables_retired entry findable
      rw [loadOrder_some next entry, List.pairwise_cons]
      refine ⟨?_, ih (by omega)⟩
      intro ⟨i, p⟩ member
      obtain ⟨_, there, load, _⟩ := retired_findable.mp ((mem_loadOrder (by omega) i p).mp member)
      exact least p (List.mem_of_getElem? there) load

end Embryo.Exec
