import Embryo.Machine.Loop

namespace Embryo.Machine

variable {σ β : Type} {related : σ → σ → Prop} {post : β → β → Prop}

def Together (related : σ → σ → Prop) (post : β → β → Prop) : Option (Pass σ β) → Option (Pass σ β) → Prop
  | none, none => True
  | some (.again t), some (.again t') => related t t'
  | some (.leave r), some (.leave r') => post r r'
  | _, _ => False

def Paired (post : β → β → Prop) : Option β → Option β → Prop
  | none, none => True
  | some r, some r' => post r r'
  | _, _ => False

theorem Paired.cases {left right : Option β} (paired : Paired post left right) :
    (left = none ∧ right = none) ∨ ∃ r r', left = some r ∧ right = some r' ∧ post r r' := by
  cases left with
  | none =>
    cases right with
    | none => exact .inl ⟨rfl, rfl⟩
    | some r' => exact paired.elim
  | some r =>
    cases right with
    | none => exact paired.elim
    | some r' => exact .inr ⟨r, r', rfl, rfl, paired⟩

theorem loop_lockstep {body body' : σ → Option (Pass σ β)}
    (pass : ∀ t t', related t t' → Together related post (body t) (body' t')) {fuel : Nat}
    {t t' : σ} (start : related t t') :
    Paired post (loop body fuel t) (loop body' fuel t') := by
  induction fuel generalizing t t' with
  | zero => exact True.intro
  | succ fuel ih =>
    have step := pass t t' start
    simp only [loop]
    revert step
    cases body t with
    | none =>
      cases body' t' with
      | none => exact fun _ => True.intro
      | some p => exact fun step => step.elim
    | some p =>
      cases body' t' with
      | none => cases p <;> exact fun step => step.elim
      | some p' =>
        intro step
        cases p with
        | again next =>
          cases p' with
          | again next' => exact ih step
          | leave r' => exact step.elim
        | leave r =>
          cases p' with
          | again next' => exact step.elim
          | leave r' => exact step

end Embryo.Machine
