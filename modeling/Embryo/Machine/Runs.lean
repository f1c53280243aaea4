import Mathlib

namespace Embryo.Machine

variable {σ ι : Type} {step : σ → ι → Option σ} {holds : σ → Prop} {meets meets' : σ → ι → Prop}

def Always (step : σ → ι → Option σ) (holds : σ → Prop) : σ → List ι → Prop
  | s, [] => holds s
  | s, i :: rest => holds s ∧ ∃ s', step s i = some s' ∧ Always step holds s' rest

def Each (step : σ → ι → Option σ) (meets : σ → ι → Prop) : σ → List ι → Prop
  | _, [] => True
  | s, i :: rest => meets s i ∧ ∀ s', step s i = some s' → Each step meets s' rest

theorem Always.first {s : σ} {run : List ι} (always : Always step holds s run) : holds s := by
  cases run with
  | nil => exact always
  | cons i rest => exact always.1

theorem always_each (s : σ) (run : List ι) :
    Always step holds s run ↔ holds s ∧ Each step (fun s i => ∃ s', step s i = some s' ∧ holds s') s run := by
  induction run generalizing s with
  | nil => exact ⟨fun first => ⟨first, True.intro⟩, And.left⟩
  | cons i rest ih =>
    constructor
    · intro ⟨first, s', stepped, later⟩
      refine ⟨first, ⟨s', stepped, later.first⟩, ?_⟩
      intro t stepped'
      cases stepped.symm.trans stepped'
      exact ((ih s').mp later).2
    · intro ⟨first, ⟨s', stepped, after⟩, later⟩
      exact ⟨first, s', stepped, (ih s').mpr ⟨after, later s' stepped⟩⟩

theorem each_iff (invariant : σ → Prop) (one : ∀ s i, invariant s → (meets s i ↔ meets' s i))
    (kept : ∀ s i s', invariant s → meets s i → step s i = some s' → invariant s') {s : σ}
    (start : invariant s) (run : List ι) :
    Each step meets s run ↔ Each step meets' s run := by
  induction run generalizing s with
  | nil => exact Iff.rfl
  | cons i rest ih =>
    constructor
    · intro ⟨met, later⟩
      exact ⟨(one s i start).mp met, fun s' stepped =>
        (ih (kept s i s' start met stepped)).mp (later s' stepped)⟩
    · intro ⟨met', later⟩
      have met := (one s i start).mpr met'
      exact ⟨met, fun s' stepped => (ih (kept s i s' start met stepped)).mpr (later s' stepped)⟩

theorem always_iff (invariant : σ → Prop)
    (one : ∀ s i, invariant s → holds s → ((∃ s', step s i = some s' ∧ holds s') ↔ meets s i))
    (kept : ∀ s i s', invariant s → holds s → step s i = some s' → invariant s') {s : σ}
    (start : invariant s) (first : holds s)
    (run : List ι) : Always step holds s run ↔ Each step meets s run := by
  rw [always_each, and_iff_right first]
  apply each_iff (fun s => invariant s ∧ holds s) (fun s i both => one s i both.1 both.2) _ ⟨start, first⟩
  intro s i s' both ⟨t, stepped, after⟩ stepped'
  cases stepped.symm.trans stepped'
  exact ⟨kept s i s' both.1 both.2 stepped, after⟩

section

variable {σ' o : Type}

def exchange (step : σ → ι → Option (o × σ)) : σ → List ι → Option (List o × σ)
  | s, [] => some ([], s)
  | s, i :: rest =>
    (step s i).bind fun r => (exchange step r.2 rest).map fun later => (r.1 :: later.1, later.2)

def Answers (related : σ → σ' → Prop) (r : o × σ) (r' : o × σ') : Prop := r.1 = r'.1 ∧ related r.2 r'.2

/-- What a step keeps between two machines, a run keeps: one goes on as long as the other, with the
    same answers. -/
theorem exchange_refines {step : σ → ι → Option (o × σ)} {step' : σ' → ι → Option (o × σ')}
    {related : σ → σ' → Prop}
    (one : ∀ s s' i, related s s' → Option.Rel (Answers related) (step s i) (step' s' i)) {s : σ}
    {s' : σ'} (start : related s s')
    (run : List ι) : Option.Rel (Answers related) (exchange step s run) (exchange step' s' run) := by
  induction run generalizing s s' with
  | nil => exact .some ⟨rfl, start⟩
  | cons i rest ih =>
    have first := one s s' i start
    rw [exchange, exchange]
    generalize step s i = r at first
    generalize step' s' i = r' at first
    cases first with
    | none => exact .none
    | @some r r' both =>
      have later := ih both.2
      rw [Option.bind_some, Option.bind_some]
      generalize exchange step r.2 rest = l at later
      generalize exchange step' r'.2 rest = l' at later
      cases later with
      | none => exact .none
      | some behind => exact .some ⟨congrArg₂ _ both.1 behind.1, behind.2⟩

end

end Embryo.Machine
