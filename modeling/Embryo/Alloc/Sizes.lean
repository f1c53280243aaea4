import Embryo.Kmem.Run
import Embryo.Malloc.Checked

namespace Embryo.Alloc

open Embryo.Machine

/-- What a request for `n` bytes may come to: either `NULL`, or a block of at least `n` bytes
    inside the arena, whose high-water mark only rises and stays below the top. -/
structure Answer (arena : Region) (mark mark' n p granted : Nat) : Prop where
  block : p ≠ 0 → n ≤ granted ∧ Region.Within ⟨p, granted⟩ arena
  rises : mark ≤ mark'
  top : mark' ≤ arena.stop

section Heap

open Malloc

def heap (L : Layout) : Region := ⟨L.heapBase, L.heapTop - L.heapBase⟩

def payload (s : State) (p : Nat) : Nat := sizeofHeader * ((s.mem (p - sizeofHeader)).size - 1)

def MallocAnswers (L : Layout) (s : State) (live : List Holding) (n : Nat) : Prop :=
  ∃ fuel p s', malloc L fuel s n = some (p, s') ∧
    Answer (heap L) s.mdAllocp s'.mdAllocp n p (payload s' p) ∧
    ∀ h ∈ live, ∀ x, h.block.addr ≤ x → x < h.block.stop → s'.mem x = s.mem x

theorem malloc_answers {L : Layout} {s : State} {live : List Holding} {n : Nat}
    (run : Reachable L Fits s live) (fits : Fits s n) : MallocAnswers L s live n := by
  obtain ⟨p, s', limit, found, result⟩ := run.invariant.malloc fits
  obtain ⟨bs, kept⟩ := result.kept
  refine ⟨limit, p, s', found limit (Nat.le_refl _), ⟨?_, result.brk, ?_⟩, result.untouched⟩
  · intro given
    rw [if_neg given] at kept
    have held : (⟨p, n⟩ : Holding) ∈ ⟨p, n⟩ :: live := List.mem_cons_self
    have member := kept.block_mem held
    have header := kept.sound.headers _ member
    obtain ⟨ptr, room⟩ := kept.sound.holds _ held
    obtain ⟨low, high⟩ := kept.sound.inside _ member
    have bound := kept.wf.bound
    have units := unitsOf_eq fits.1
    simp only [Holding.block, Block.stop, payload, heap, Region.Within, Region.stop, sizeofHeader] at *
    rw [header]
    omega
  · have bound := kept.wf.bound
    have := L.heap_le
    simp only [heap, Region.stop]
    omega

end Heap

section Kernel

open Kmem

def arena (A : Arena) : Region := ⟨A.kmembase, kmemSize⟩

def marked (A : Arena) (k : State) (va : Nat) : Nat :=
  let ku := k.kmemusage (usageIndex A va)
  if ku.kuIndex = ((nrBuckets - 1 : Nat) : Int) then ku.kuUn * clBytes else 2^ku.kuIndex.toNat

def KmemAnswers (A : Arena) (k : State) (live : List Holding) (n : Nat) : Prop :=
  Answer (arena A) (A.kmembase + k.kmemoffs) (A.kmembase + (kmemMalloc A k n).2.kmemoffs) n
      (kmemMalloc A k n).1 (marked A (kmemMalloc A k n).2 (kmemMalloc A k n).1) ∧
    ∀ h ∈ live, ∀ x, h.ptr ≤ x → x < h.region.stop → (kmemMalloc A k n).2.next x = k.next x

theorem marked_eq {A : Arena} {k : State} {h : Holding}
    (mark : (k.kmemusage (usageIndex A h.ptr)).kuIndex = h.index)
    (clusters : maxAllocSave < h.nbytes →
      (k.kmemusage (usageIndex A h.ptr)).kuUn * clBytes = roundCluster h.nbytes) :
    marked A k h.ptr = h.region.size := by
  simp only [marked, Holding.region, blockSize, mark, Holding.index]
  by_cases small : h.nbytes ≤ maxAllocSave
  · obtain ⟨_, high, _⟩ := bucketIndex_bounds small
    have other : ¬ ((bucketIndex h.nbytes : Int) = ((nrBuckets - 1 : Nat) : Int)) := by omega
    simp only [small, if_true, other, if_false, Int.toNat_natCast]
  · simp only [small, if_false, if_true]
    exact clusters (by omega)

theorem kmem_answers {A : Arena} {k : State} {fixed : List Region} {live : List Holding} {n : Nat}
    (run : Reachable A (fun n => n + 4095 < 2^32) k fixed live) (fits : n + 4095 < 2^32) :
    KmemAnswers A k live n := by
  obtain ⟨chunks, regions, inv⟩ := run.inv (fun _ fits => fits)
  have offs := inv.offsLe
  rcases inv.malloc fits with refused | ⟨p, k', served, result⟩
  · rw [KmemAnswers, refused]
    refine ⟨⟨fun given => absurd rfl given, Nat.le_refl _, ?_⟩, fun _ _ _ _ _ => rfl⟩
    simp only [arena, Region.stop]
    omega
  · obtain ⟨chunks', regions', after⟩ := result.inv
    obtain ⟨region, mark⟩ := after.held ⟨p, n⟩ List.mem_cons_self
    obtain ⟨low, high, _⟩ := after.bounds _ region
    have offs' := after.offsLe
    have rises := result.offs
    rw [KmemAnswers, served]
    refine ⟨⟨fun _ => ?_, ?_, ?_⟩, ?_⟩
    · rw [marked_eq (h := ⟨p, n⟩) mark result.clusters]
      refine ⟨nbytes_le_blockSize fits, low, ?_⟩
      simp only [arena, Region.stop, Holding.region] at *
      omega
    · simp only
      omega
    · simp only [arena, Region.stop]
      omega
    · intro h member x _ below
      obtain ⟨regionH, _⟩ := inv.held h member
      have := (inv.bounds _ regionH).2.1
      exact result.untouched x (by omega)

end Kernel

/-- No request for which the sums stay below `2^32` is answered wrongly by either allocator,
    in any state such requests lead to. -/
theorem requests_answered (n : Nat) :
    (∀ {L : Malloc.Layout} {s : Malloc.State} {live : List Malloc.Holding},
      Malloc.Reachable L Malloc.Fits s live → Malloc.Fits s n → MallocAnswers L s live n) ∧
    (∀ {A : Kmem.Arena} {k : Kmem.State} {fixed : List Region} {live : List Kmem.Holding},
      Kmem.Reachable A (fun n => n + 4095 < 2^32) k fixed live → n + 4095 < 2^32 → KmemAnswers A k live n) :=
  ⟨malloc_answers, kmem_answers⟩

theorem booted_reachable (ok : Nat → Prop) :
    Kmem.Reachable Kmem.board ok Kmem.booted [Kmem.table Kmem.board] [] :=
  .start (show Kmem.kmeminit Kmem.board (fun _ => ⟨0, 0⟩) (fun _ => 0) = (_, Kmem.booted) from rfl)

theorem requests_answered_first :
    MallocAnswers Malloc.board Malloc.boot [] 100 ∧ KmemAnswers Kmem.board Kmem.booted [] 600000 := by
  constructor
  · exact (requests_answered 100).1 (.init _) (by unfold Malloc.Fits; decide +kernel)
  · exact (requests_answered 600000).2 (booted_reachable _) (by decide)

abbrev lowering : Option (Nat × Malloc.State) := Malloc.malloc Malloc.board 4 Malloc.boot 0x80000000

theorem lowering_ends : lowering.isSome = true := by decide

/-- Half the address space moves the break down; all of it but five bytes yields a kernel
    block of no bytes. -/
theorem requests_wrap :
    (Malloc.Reachable Malloc.board (fun _ n => n < 2^32) Malloc.boot [] ∧
      ¬ MallocAnswers Malloc.board Malloc.boot [] 0x80000000) ∧
    (Kmem.Reachable Kmem.board (· < 2^32) Kmem.booted [Kmem.table Kmem.board] [] ∧
      ¬ KmemAnswers Kmem.board Kmem.booted [] (2^32 - 5)) := by
  refine ⟨⟨.init _, ?_⟩, booted_reachable _, ?_⟩
  · rintro ⟨fuel, p, s', found, answer, _⟩
    have result : Malloc.malloc Malloc.board 4 Malloc.boot 0x80000000 =
        some ((lowering.get lowering_ends).1, (lowering.get lowering_ends).2) :=
      Malloc.ended_eq lowering_ends
    have same := (Malloc.malloc_mono found (Nat.le_max_left fuel 4)).symm.trans
      (Malloc.malloc_mono result (Nat.le_max_right fuel 4))
    simp only [Option.some.injEq, Prod.mk.injEq] at same
    have rises := answer.rises
    rw [same.2] at rises
    exact absurd rises (by decide)
  · rintro ⟨answer, _⟩
    have granted := (answer.block (by decide +kernel)).1
    exact absurd granted (by decide +kernel)

end Embryo.Alloc
