import Mathlib

namespace Embryo.Machine

inductive Pass (σ β : Type) where
  | again (state : σ)
  | leave (result : β)

/-- A loop cut off after `fuel` passes. The result is `none` when the body faults
    or when the passes run out. -/
def loop {σ β : Type} (body : σ → Option (Pass σ β)) : Nat → σ → Option β
  | 0, _ => none
  | fuel + 1, state =>
    match body state with
    | none => none
    | some (.leave result) => some result
    | some (.again next) => loop body fuel next

def passes {σ β : Type} (body : σ → Pass σ β) : Nat → σ → Pass σ β
  | 0, state => .again state
  | count + 1, state =>
    match body state with
    | .again next => passes body count next
    | .leave result => .leave result

theorem forall_passes {σ β : Type} {body : σ → Pass σ β} {good : Pass σ β → Prop} (state : σ) :
    (∀ count, good (passes body count state)) ↔ good (.again state) ∧
      match body state with
      | .again next => ∀ count, good (passes body count next)
      | .leave result => good (.leave result) := by
  constructor
  · intro all
    refine ⟨all 0, ?_⟩
    cases passed : body state with
    | again next =>
      intro count
      have later := all (count + 1)
      rw [passes, passed] at later
      exact later
    | leave result =>
      have later := all 1
      rw [passes, passed] at later
      exact later
  · intro ⟨first, later⟩ count
    cases count with
    | zero => exact first
    | succ count =>
      rw [passes]
      cases passed : body state with
      | again next =>
        rw [passed] at later
        exact later count
      | leave result =>
        rw [passed] at later
        exact later

variable {σ β : Type} {body : σ → Option (Pass σ β)}

theorem loop_leave {fuel : Nat} {state : σ} {result : β} (positive : 0 < fuel)
    (left : body state = some (.leave result)) : loop body fuel state = some result := by
  obtain ⟨rest, rfl⟩ : ∃ rest, fuel = rest + 1 := ⟨fuel - 1, by omega⟩
  simp only [loop, left]

theorem loop_again {fuel : Nat} {state next : σ}
    (again : body state = some (.again next)) : loop body (fuel + 1) state = loop body fuel next := by
  simp only [loop, again]

/-- A loop that leaves under a bound leaves with the same result under any larger
    bound, also when the body itself has been given more to spend. -/
theorem loop_mono {body' : σ → Option (Pass σ β)} {fuel fuel' : Nat} {state : σ} {result : β}
    (left : loop body fuel state = some result) (bound : fuel ≤ fuel')
    (extend : ∀ state pass, body state = some pass → body' state = some pass) :
    loop body' fuel' state = some result := by
  induction fuel generalizing fuel' state with
  | zero => cases left
  | succ fuel ih =>
    obtain ⟨rest, rfl⟩ : ∃ rest, fuel' = rest + 1 := ⟨fuel' - 1, by omega⟩
    simp only [loop] at left ⊢
    cases passed : body state with
    | none => simp only [passed] at left; cases left
    | some pass =>
      rw [extend _ _ passed]
      cases pass with
      | leave value => simpa only [passed] using left
      | again next =>
        simp only [passed] at left
        exact ih left (by omega)

theorem loop_unique {fuel fuel' : Nat} {state : σ} {result result' : β}
    (left : loop body fuel state = some result) (left' : loop body fuel' state = some result') :
    result = result' := by
  have more := loop_mono left (Nat.le_max_left fuel fuel') (fun _ _ passed => passed)
  have more' := loop_mono left' (Nat.le_max_right fuel fuel') (fun _ _ passed => passed)
  exact Option.some.inj (more.symm.trans more')

theorem loop_invariant (invariant : σ → Prop) (post : β → Prop)
    (again : ∀ state next, body state = some (.again next) → invariant state → invariant next)
    (leave : ∀ state result, body state = some (.leave result) → invariant state → post result)
    {fuel : Nat} {state : σ} {result : β} (left : loop body fuel state = some result)
    (start : invariant state) : post result := by
  induction fuel generalizing state with
  | zero => cases left
  | succ fuel ih =>
    simp only [loop] at left
    cases passed : body state with
    | none => rw [passed] at left; cases left
    | some pass =>
      rw [passed] at left
      cases pass with
      | leave value =>
        simp only [Option.some.injEq] at left
        exact left ▸ leave state value passed start
      | again next => exact ih left (again state next passed start)

/-- Termination and partial correctness together: an invariant kept by every pass
    and a variant that every further pass decreases. -/
theorem loop_variant (invariant : σ → Prop) (variant : σ → Nat) (post : β → Prop)
    (pass : ∀ state, invariant state →
      (∃ next, body state = some (.again next) ∧ invariant next ∧ variant next < variant state) ∨
      (∃ result, body state = some (.leave result) ∧ post result))
    (fuel : Nat) (state : σ) (start : invariant state) (bound : variant state < fuel) :
    ∃ result, loop body fuel state = some result ∧ post result := by
  induction fuel generalizing state with
  | zero => omega
  | succ fuel ih =>
    rcases pass state start with ⟨next, again, kept, less⟩ | ⟨result, left, done⟩
    · rw [loop_again again]
      exact ih next kept (by omega)
    · exact ⟨result, loop_leave (by omega) left, done⟩

theorem loop_within (invariant : σ → Prop) (variant : σ → Nat)
    (again : ∀ state next, invariant state → body state = some (.again next) → invariant next ∧
      variant next < variant state)
    {fuel bound : Nat} {state : σ} {result : β} (left : loop body fuel state = some result)
    (start : invariant state)
    (enough : variant state < bound) : loop body bound state = some result := by
  induction fuel generalizing state bound with
  | zero => cases left
  | succ fuel ih =>
    obtain ⟨bound, rfl⟩ : ∃ rest, bound = rest + 1 := ⟨bound - 1, by omega⟩
    simp only [loop] at left ⊢
    cases passed : body state with
    | none =>
      rw [passed] at left
      cases left
    | some pass =>
      rw [passed] at left
      cases pass with
      | leave value => exact left
      | again next =>
        obtain ⟨kept, less⟩ := again state next start passed
        exact ih left kept (by omega)

theorem loop_never_leaves (invariant : σ → Prop)
    (pass : ∀ state, invariant state →
      body state = none ∨ ∃ next, body state = some (.again next) ∧ invariant next)
    (fuel : Nat) (state : σ) (start : invariant state) : loop body fuel state = none := by
  induction fuel generalizing state with
  | zero => rfl
  | succ fuel ih =>
    rcases pass state start with fault | ⟨next, again, kept⟩
    · simp only [loop, fault]
    · rw [loop_again again]
      exact ih next kept

theorem loop_simulates {σ' β' : Type} {body' : σ' → Option (Pass σ' β')} (related : σ → σ' → Prop)
    (post : β → β' → Prop)
    (pass : ∀ state state', related state state' → body state = none ∨
      (∃ next next', body state = some (.again next) ∧ body' state' = some (.again next') ∧
        related next next') ∨
        ∃ result result', body state = some (.leave result) ∧ body' state' = some (.leave result') ∧
          post result result')
    {fuel : Nat} {state : σ} {state' : σ'} {result : β} (left : loop body fuel state = some result)
    (start : related state state') :
    ∃ result', loop body' fuel state' = some result' ∧ post result result' := by
  induction fuel generalizing state state' with
  | zero => cases left
  | succ fuel ih =>
    rcases pass state state' start with fault | ⟨next, next', again, again', kept⟩
      | ⟨value, value', leave, leave', done⟩
    · simp only [loop, fault] at left
      cases left
    · rw [loop_again again] at left
      rw [loop_again again']
      exact ih left kept
    · rw [loop_leave (Nat.succ_pos fuel) leave] at left
      cases left
      exact ⟨value', loop_leave (Nat.succ_pos fuel) leave', done⟩

inductive Visits (body : σ → Option (Pass σ β)) : σ → σ → Prop
  | here (s : σ) : Visits body s s
  | again {s t u : σ} (earlier : Visits body s t) (passed : body t = some (.again u)) : Visits body s u

theorem Visits.first {s u : σ} (visits : Visits body s u) :
    u = s ∨ ∃ t, body s = some (.again t) ∧ Visits body t u := by
  induction visits with
  | here => exact .inl rfl
  | @again t u earlier passed ih =>
    right
    rcases ih with rfl | ⟨next, begun, rest⟩
    · exact ⟨u, passed, .here u⟩
    · exact ⟨next, begun, rest.again passed⟩

theorem Visits.linear {s t u : σ} (left : Visits body s t) (right : Visits body s u) :
    Visits body t u ∨ Visits body u t := by
  induction left with
  | here => exact .inl right
  | @again t t' earlier passed ih =>
    rcases ih with onward | back
    · rcases onward.first with rfl | ⟨next, begun, rest⟩
      · exact .inr ((Visits.here u).again passed)
      · rw [passed] at begun
        cases begun
        exact .inl rest
    · exact .inr (back.again passed)

def Pass.left : Pass σ β → Bool
  | .again _ => false
  | .leave _ => true

theorem Visits.only {s u : σ} (left : (body s).any Pass.left = true) (visits : Visits body s u) : u = s := by
  rcases visits.first with same | ⟨t, again, -⟩
  · exact same
  · rw [again] at left
    cases left

def stages (body : σ → Option (Pass σ β)) : Nat → σ → List σ
  | 0, _ => []
  | fuel + 1, s => s :: match body s with
    | some (.again t) => stages body fuel t
    | _ => []

theorem Visits.stages {fuel : Nat} {s u : σ} (ended : (loop body fuel s).isSome = true)
    (visits : Visits body s u) :
    u ∈ stages body fuel s := by
  induction fuel generalizing s with
  | zero => cases ended
  | succ fuel ih =>
    rw [Machine.stages]
    rcases visits.first with rfl | ⟨t, again, rest⟩
    · exact List.mem_cons_self
    · rw [loop_again again] at ended
      rw [again]
      exact List.mem_cons_of_mem _ (ih ended rest)

/-- What every pass keeps holds where the loop leaves, where the passes are known to be from states
    of the loop. -/
theorem loop_visits {start : σ} (invariant : σ → Prop) (post : β → Prop)
    (again : ∀ s next, Visits body start s → body s = some (.again next) → invariant s → invariant next)
    (leave : ∀ s result, Visits body start s → body s = some (.leave result) → invariant s → post result)
    {fuel : Nat} {result : β} (left : loop body fuel start = some result)
    (first : invariant start) : post result := by
  refine loop_invariant (fun s => Visits body start s ∧ invariant s) post
    (fun s next passed held => ?_) (fun s result passed held => ?_)
    left ⟨.here start, first⟩
  · exact ⟨held.1.again passed, again s next held.1 passed held.2⟩
  · exact leave s result held.1 passed held.2

end Embryo.Machine
