import Mathlib

namespace Embryo.Machine

variable {γ δ : Type}

def layout (item : Nat → Nat → γ) : Nat → List Nat → List γ
  | _, [] => []
  | a, size :: rest => item a size :: layout item (a + size) rest

variable {item : Nat → Nat → γ} {a : Nat} {sizes : List Nat}

theorem layout_append (more : List Nat) :
    layout item a (sizes ++ more) = layout item a sizes ++ layout item (a + sizes.sum) more := by
  induction sizes generalizing a with
  | nil => rfl
  | cons size rest ih =>
    rw [List.cons_append, layout, layout, List.cons_append, ih, List.sum_cons, Nat.add_assoc]

theorem layout_flatMap (item : Nat → Nat → γ) (parts : γ → List δ) (part : Nat → δ)
    (sizes : List Nat) {limit : Nat}
    (bound : a + sizes.sum ≤ limit)
    (holds : ∀ b, ∀ size ∈ sizes, b + size ≤ limit → parts (item b size) = (List.range' b size).map part) :
    (layout item a sizes).flatMap parts = (List.range' a sizes.sum).map part := by
  induction sizes generalizing a with
  | nil => rfl
  | cons size rest ih =>
    rw [List.sum_cons, ← Nat.add_assoc] at bound
    have first := holds a size List.mem_cons_self ((Nat.le_add_right _ _).trans bound)
    have others := fun b size member => holds b size (List.mem_cons_of_mem _ member)
    rw [layout, List.flatMap_cons, ih bound others, first, List.sum_cons, ← List.range'_append_1,
      List.map_append]

theorem forall_layout {good : γ → Prop} (sizes : List Nat) (each : ∀ a, ∀ size ∈ sizes, good (item a size)) :
    ∀ c ∈ layout item a sizes, good c := by
  induction sizes generalizing a with
  | nil => exact fun _ member => absurd member List.not_mem_nil
  | cons size rest ih =>
    intro c member
    rcases List.mem_cons.mp member with rfl | later
    · exact each a size List.mem_cons_self
    · exact ih (fun a size inside => each a size (List.mem_cons_of_mem _ inside)) c later

structure Portions (most n : Nat) (sizes : List Nat) : Prop where
  sum : sizes.sum = n
  piece : ∀ size ∈ sizes, 0 < size ∧ size ≤ most

variable {most n : Nat}

theorem Portions.none : Portions most 0 [] := ⟨rfl, fun _ member => absurd member List.not_mem_nil⟩

theorem Portions.cons (portions : Portions most n sizes) {size : Nat} (pos : 0 < size) (small : size ≤ most) :
    Portions most (size + n) (size :: sizes) := by
  constructor
  · rw [List.sum_cons, portions.sum]
  · intro other member
    rcases List.mem_cons.mp member with rfl | later
    · exact ⟨pos, small⟩
    · exact portions.piece other later

theorem Portions.snoc (portions : Portions most n sizes) {size : Nat} (pos : 0 < size) (small : size ≤ most) :
    Portions most (n + size) (sizes ++ [size]) := by
  constructor
  · rw [List.sum_append, portions.sum, List.sum_singleton]
  · intro other member
    rcases List.mem_append.mp member with earlier | last
    · exact portions.piece other earlier
    · rw [List.mem_singleton.mp last]
      exact ⟨pos, small⟩

def Split (most n : Nat) (item : Nat → Nat → γ) (items : List γ) : Prop :=
  ∃ sizes, Portions most n sizes ∧ items = layout item 0 sizes

end Embryo.Machine
