import Embryo.Kmem.Run

namespace Embryo.Kmem

open Embryo.Machine

def Idle (k : State) (p : Nat) : Prop := ∃ i nodes, Linked k.next (k.buckets i).kbNext nodes ∧ p ∈ nodes

/-- Callers hold the blocks `held`, others hold other blocks, and the blocks `idle` are free. -/
def Allots (A : Arena) (k : State) (held : List Holding) (idle : List Nat) : Prop :=
  ∃ fixed others chunks regions, Inv A k fixed (held ++ others) chunks regions ∧
    ∀ p ∈ idle, ∃ i ∈ indices, p ∈ chunks i

variable {A : Arena} {k : State} {held held' : List Holding} {idle : List Nat} {h : Holding} {p size : Nat}

theorem Allots.idle_of_mem (allots : Allots A k held idle) (member : p ∈ idle) : Idle k p := by
  obtain ⟨fixed, others, chunks, regions, inv, listed⟩ := allots
  obtain ⟨i, memberI, inChunks⟩ := listed p member
  exact ⟨i, chunks i, inv.linked i memberI, inChunks⟩

theorem Allots.perm (allots : Allots A k held idle) (perm : held.Perm held') : Allots A k held' idle := by
  obtain ⟨fixed, others, chunks, regions, inv, listed⟩ := allots
  exact ⟨fixed, others, chunks, regions, inv.perm (List.Perm.refl _) (perm.append_right others), listed⟩

theorem Allots.free (allots : Allots A k (h :: held) idle) (small : h.nbytes ≤ maxAllocSave) :
    ∃ k', kmemFree A k h.ptr = some k' ∧ Allots A k' held (h.ptr :: idle) := by
  obtain ⟨fixed, others, chunks, regions, inv, listed⟩ := allots
  obtain ⟨freed, after⟩ := inv.push_chunk List.mem_cons_self small rfl
  obtain ⟨low, high, _⟩ := bucketIndex_bounds small
  have memberI : bucketIndex h.nbytes ∈ indices := mem_indices.mpr ⟨low, high⟩
  rw [List.cons_append, List.erase_cons_head] at after
  refine ⟨_, freed, fixed, others, _, regions, after, ?_⟩
  intro p member
  rcases List.mem_cons.mp member with rfl | before
  · exact ⟨_, memberI, by rw [Function.update_self]; exact List.mem_append_right _ List.mem_cons_self⟩
  · obtain ⟨i, memberI, inChunks⟩ := listed p before
    refine ⟨i, memberI, ?_⟩
    by_cases same : i = bucketIndex h.nbytes
    · rw [same, Function.update_self, ← same]
      exact List.mem_append_left _ inChunks
    · rw [Function.update_of_ne same]
      exact inChunks

theorem Allots.malloc (allots : Allots A k held idle) (bound : size + 4095 < 2^32) :
    kmemMalloc A k size = (0, k) ∨
      ∃ p k', kmemMalloc A k size = (p, k') ∧ p ≠ 0 ∧ Allots A k' (⟨p, size⟩ :: held) [] := by
  obtain ⟨fixed, others, chunks, regions, inv, listed⟩ := allots
  rcases inv.malloc bound with failed | ⟨p, k', given, served⟩
  · exact .inl failed
  · obtain ⟨chunks', regions', after⟩ := served.inv
    exact .inr ⟨p, k', given, served.nonzero, fixed, others, chunks', regions', after, nofun⟩

end Embryo.Kmem
