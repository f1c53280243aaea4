import Mathlib

namespace Embryo.Machine

def Linked (next : Nat → Nat) : Nat → List Nat → Prop
  | first, [] => first = 0
  | first, a :: rest => first = a ∧ a ≠ 0 ∧ Linked next (next a) rest

theorem Linked.congr {next next' : Nat → Nat} {first : Nat} {nodes : List Nat}
    (linked : Linked next first nodes) (same : ∀ a ∈ nodes, next' a = next a) :
    Linked next' first nodes := by
  induction nodes generalizing first with
  | nil => exact linked
  | cons a nodes ih =>
    obtain ⟨head, nonzero, rest⟩ := linked
    refine ⟨head, nonzero, ?_⟩
    rw [same a (by simp)]
    exact ih rest (fun b member => same b (List.mem_cons_of_mem _ member))

theorem Linked.nonzero {next : Nat → Nat} {first : Nat} {nodes : List Nat}
    (linked : Linked next first nodes) {a : Nat} (member : a ∈ nodes) : a ≠ 0 := by
  induction nodes generalizing first with
  | nil => cases member
  | cons b nodes ih =>
    obtain ⟨_, nonzero, rest⟩ := linked
    rcases List.mem_cons.mp member with rfl | member
    · exact nonzero
    · exact ih rest member

theorem Linked.first_eq_zero_iff {next : Nat → Nat} {first : Nat} {nodes : List Nat}
    (linked : Linked next first nodes) : first = 0 ↔ nodes = [] := by
  cases nodes with
  | nil => simpa [Linked] using linked
  | cons a nodes =>
    obtain ⟨rfl, nonzero, _⟩ := linked
    simp [nonzero]

theorem Linked.append {next next' : Nat → Nat} {first last fresh : Nat} {nodes : List Nat}
    (linked : Linked next first (nodes ++ [last])) (nodup : (nodes ++ [last]).Nodup)
    (nonzero : fresh ≠ 0) (link : next' last = fresh) (ends : next' fresh = 0)
    (same : ∀ a ∈ nodes, next' a = next a) :
    Linked next' first (nodes ++ [last] ++ [fresh]) := by
  induction nodes generalizing first with
  | nil =>
    obtain ⟨head, positive, _⟩ := linked
    exact ⟨head, positive, link, nonzero, ends⟩
  | cons a nodes ih =>
    obtain ⟨head, positive, rest⟩ := linked
    refine ⟨head, positive, ?_⟩
    rw [same a (by simp)]
    exact ih rest (List.nodup_cons.mp nodup).2 (fun b member => same b (List.mem_cons_of_mem _ member))

theorem Linked.insert {next next' : Nat → Nat} {first last fresh : Nat} {front rest : List Nat}
    (linked : Linked next first (front ++ last :: rest)) (nonzero : fresh ≠ 0) (link : next' last = fresh)
    (onward : next' fresh = next last) (same : ∀ a ∈ front ++ rest, next' a = next a) :
    Linked next' first (front ++ last :: fresh :: rest) := by
  induction front generalizing first with
  | nil =>
    obtain ⟨head, positive, behind⟩ := linked
    refine ⟨head, positive, link, nonzero, ?_⟩
    rw [onward]
    exact behind.congr same
  | cons a front ih =>
    obtain ⟨head, positive, behind⟩ := linked
    refine ⟨head, positive, ?_⟩
    rw [same a List.mem_cons_self]
    exact ih behind fun b member => same b (List.mem_cons_of_mem a member)

end Embryo.Machine
