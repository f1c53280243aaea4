import Embryo.Malloc.Run

namespace Embryo.Malloc

open Embryo.Machine

def SbrkExtends (s : State) (nbytes : Nat) : Prop :=
  nbytes + 7 < 2^32 ∧ s.mdAllocp + wrap (batchOf (unitsOf nbytes) * sizeofHeader) < 2^32

def BatchFits (nbytes : Nat) : Prop := batchOf (unitsOf nbytes) * sizeofHeader < 2^32

theorem batchFits_iff {nbytes : Nat} (bound : nbytes + 7 < 2^32) :
    BatchFits nbytes ↔ nbytes ≤ 2^32 - 1032 := by
  have units := unitsOf_eq bound
  have batch := batchOf_eq (n := unitsOf nbytes) (by omega)
  simp only [BatchFits, sizeofHeader]
  omega

theorem fits_of_batch {s : State} {nbytes : Nat}
    (admitted : SbrkExtends s nbytes ∧ BatchFits nbytes) : Fits s nbytes := by
  obtain ⟨⟨units, brk⟩, batch⟩ := admitted
  rw [wrap_of_lt batch] at brk
  exact ⟨units, by rw [Nat.mul_comm]; exact brk⟩

theorem Reachable.mono {L : Layout} {ok ok' : State → Nat → Prop} {s : State} {live : List Holding}
    (run : Reachable L ok s live) (weaker : ∀ s nbytes, ok s nbytes → ok' s nbytes) :
    Reachable L ok' s live := by
  induction run with
  | init mem => exact .init mem
  | handed _ admitted result found ih => exact .handed ih (weaker _ _ admitted) result found
  | refused _ admitted result ih => exact .refused ih (weaker _ _ admitted) result
  | freed _ held result ih => exact .freed ih held result
  | stored _ held low high ih => exact .stored ih held low high

/-- Every run whose batches fit keeps the free list, the tiling and the blocks in use sound,
    and no search loop of it runs for ever. -/
theorem heap_runs_sound {L : Layout} {s : State} {live : List Holding}
    (run : Reachable L (fun s nbytes => SbrkExtends s nbytes ∧ BatchFits nbytes) s live) :
    ((s.allocp = 0 ∧ s.mdAllocp = L.heapBase ∧ live = []) ∨ ∃ bs, Sound L s live bs) ∧
    (∀ nbytes, SbrkExtends s nbytes → BatchFits nbytes →
      ∃ fuel p s', malloc L fuel s nbytes = some (p, s')) ∧
    (∀ h ∈ live, ∃ fuel s', free fuel s h.ptr = some s') := by
  have inv := (run.mono (fun _ _ admitted => fits_of_batch admitted)).invariant
  refine ⟨?_, ?_, ?_⟩
  · rcases inv with fresh | ⟨bs, kept⟩
    · exact .inl fresh
    · exact .inr ⟨bs, kept.sound⟩
  · intro nbytes extends' batch
    obtain ⟨p, s', limit, found, _⟩ := inv.malloc (fits_of_batch ⟨extends', batch⟩)
    exact ⟨limit, p, s', found limit (Nat.le_refl _)⟩
  · intro h held
    rcases inv with ⟨_, _, rfl⟩ | ⟨bs, kept⟩
    · cases held
    · obtain ⟨s', limit, _, freed, _⟩ := kept.free_result held
      exact ⟨limit, s', freed limit (Nat.le_refl _)⟩

theorem ended_eq {outcome : Option (Nat × State)} (ended : outcome.isSome = true) :
    outcome = some ((outcome.get ended).1, (outcome.get ended).2) := (Option.some_get ended).symm

def board : Layout where
  base := 0x8f0a0000
  heapBase := 0x8f400000
  heapTop := 0x8f800000
  base_pos := by decide
  base_lt := by decide
  heap_pos := by decide
  heap_le := by decide
  top_lt := by decide
  apart := by decide

def boot : State := start board (fun _ => ⟨0, 0⟩)

abbrev firstCall : Option (Nat × State) := malloc board 4 boot 100

theorem firstCall_ends : firstCall.isSome = true := by decide

theorem heap_runs_sound_first :
    ∃ s live, live ≠ [] ∧
      Reachable board (fun s nbytes => SbrkExtends s nbytes ∧ BatchFits nbytes) s live ∧
      ∃ bs, Sound board s live bs := by
  have result : malloc board 4 boot 100 =
      some ((firstCall.get firstCall_ends).1, (firstCall.get firstCall_ends).2) :=
    ended_eq firstCall_ends
  have run : Reachable board (fun s nbytes => SbrkExtends s nbytes ∧ BatchFits nbytes)
      (firstCall.get firstCall_ends).2 [⟨(firstCall.get firstCall_ends).1, 100⟩] :=
    .handed (.init _) (by unfold SbrkExtends BatchFits; decide +kernel) result (by decide)
  refine ⟨_, _, by simp, run, ?_⟩
  rcases (heap_runs_sound run).1 with ⟨_, _, empty⟩ | sound
  · cases empty
  · exact sound

/-- A request whose batch wraps to nothing: `sbrk(0)` succeeds and a block of `2^32` bytes
    is linked at the break. -/
abbrev wrappedCall : Option (Nat × State) := malloc board 4 boot (2^32 - 8)

theorem wrappedCall_ends : wrappedCall.isSome = true := by decide

abbrev secondCall : Option (Nat × State) := malloc board 8 (wrappedCall.get wrappedCall_ends).2 8

theorem secondCall_ends : secondCall.isSome = true := by decide

/-- The next caller is handed memory inside the block of the first. -/
theorem heap_runs_overlap :
    ¬ ∀ s live, Reachable board SbrkExtends s live →
      (s.allocp = 0 ∧ s.mdAllocp = board.heapBase ∧ live = []) ∨ ∃ bs, Sound board s live bs := by
  intro claim
  have result₁ : malloc board 4 boot (2^32 - 8) = some ((wrappedCall.get wrappedCall_ends).1,
      (wrappedCall.get wrappedCall_ends).2) := ended_eq wrappedCall_ends
  have result₂ : malloc board 8 (wrappedCall.get wrappedCall_ends).2 8 =
      some ((secondCall.get secondCall_ends).1, (secondCall.get secondCall_ends).2) :=
    ended_eq secondCall_ends
  have first : Reachable board SbrkExtends (wrappedCall.get wrappedCall_ends).2
      [⟨(wrappedCall.get wrappedCall_ends).1, 2^32 - 8⟩] :=
    .handed (.init _) (by unfold SbrkExtends; decide +kernel) result₁ (by decide)
  have second : Reachable board SbrkExtends (secondCall.get secondCall_ends).2
      [⟨(secondCall.get secondCall_ends).1, 8⟩, ⟨(wrappedCall.get wrappedCall_ends).1, 2^32 - 8⟩] :=
    .handed first (by unfold SbrkExtends; decide +kernel) result₂ (by decide)
  rcases claim _ _ second with ⟨_, _, empty⟩ | ⟨bs, sound⟩
  · cases empty
  · have apart := sound.disjoint
    simp only [List.pairwise_cons, List.mem_singleton, forall_eq] at apart
    exact absurd apart.1 (by decide)

end Embryo.Malloc
