import Embryo.Kmem.Serve

namespace Embryo.Kmem

open Embryo.Machine

def table (A : Arena) : Region := ⟨A.kmembase, ncl * sizeofKmemusage⟩

/-- The states reached after `__kmeminit`. `live` is what callers of `kmem_malloc` hold,
    `fixed` what was taken from `__kmem_alloc` itself. Requests satisfy `ok`. A caller may
    store what it likes into its block. -/
inductive Reachable (A : Arena) (ok : Nat → Prop) : State → List Region → List Holding → Prop
  | start {kmemusage next va k} (init : kmeminit A kmemusage next = (va, k)) :
      Reachable A ok k [table A] []
  | fail {k fixed live size k'} (before : Reachable A ok k fixed live) (allowed : ok size)
      (call : kmemMalloc A k size = (0, k')) : Reachable A ok k' fixed live
  | malloc {k fixed live size p k'} (before : Reachable A ok k fixed live) (allowed : ok size)
      (call : kmemMalloc A k size = (p, k')) (given : p ≠ 0) :
      Reachable A ok k' fixed (⟨p, size⟩ :: live)
  | free {k fixed live h k'} (before : Reachable A ok k fixed live) (held : h ∈ live)
      (small : h.nbytes ≤ maxAllocSave) (call : kmemFree A k h.ptr = some k') :
      Reachable A ok k' fixed (live.erase h)
  | pages {k fixed live size p k'} (before : Reachable A ok k fixed live) (positive : 0 < size)
      (bound : size ≤ kmemSize) (call : kmemAlloc A k size = (p, k')) (given : p ≠ 0) :
      Reachable A ok k' (⟨p, roundPage size⟩ :: fixed) live
  | store {k fixed live h next} (before : Reachable A ok k fixed live) (held : h ∈ live)
      (frame : ∀ x, ¬ (h.ptr ≤ x ∧ x < h.region.stop) → next x = k.next x) :
      Reachable A ok { k with next } fixed live

variable {A : Arena} {k : State} {fixed : List Region} {live : List Holding}
  {chunks : Nat → List Nat} {regions : List Region}

theorem Inv.init (A : Arena) (kmemusage : Nat → Kmemusage) (next : Nat → Nat) :
    ∃ regions, Inv A (kmeminit A kmemusage next).2 [table A] [] (fun _ => []) regions := by
  have empty : Inv A ⟨0, kmemusage, fun _ => ⟨0, 0⟩, next⟩ [] [] (fun _ => []) [] := by
    constructor
    · exact Nat.zero_le _
    · rfl
    · intro r member
      cases member
    · exact .nil
    · intro i _
      rfl
    · intro i _ a member
      cases member
    · intro i _
      rfl
    · intro i _ a member
      cases member
    · intro h member
      cases member
    · intro r member
      cases member
    · decide
  have page : ncl * sizeofKmemusage % pageSize = 0 := by decide
  have positive : 0 < ncl * sizeofKmemusage := by decide
  have room : 0 + ncl * sizeofKmemusage ≤ kmemSize := by decide
  have taken := empty.take_pages positive page room
  rw [kmeminit, kmemAlloc_grants page room]
  exact ⟨_, taken⟩

theorem Inv.store (inv : Inv A k fixed live chunks regions) {h : Holding} (held : h ∈ live)
    {next : Nat → Nat} (frame : ∀ x, ¬ (h.ptr ≤ x ∧ x < h.region.stop) → next x = k.next x) :
    Inv A { k with next } fixed live chunks regions := by
  refine { inv with linked := ?_ }
  intro i memberI
  apply (inv.linked i memberI).congr
  intro a memberA
  apply frame
  intro inside
  obtain ⟨regionH, _⟩ := inv.held h held
  obtain ⟨regionA, _⟩ := inv.chunk i memberI a memberA
  have positive := (inv.bounds _ regionA).2.2
  have different : h.region ≠ ⟨a, 2^i⟩ := by
    intro same
    have ptr : h.ptr = a := congrArg Region.addr same
    exact inv.held_not_free held memberI (ptr ▸ memberA)
  have apart := Region.apart_of_mem inv.apart regionH regionA different
  simp only [Region.Apart, Region.stop, Holding.region] at *
  omega

theorem Inv.pages (inv : Inv A k fixed live chunks regions) {size p : Nat} {k' : State}
    (positive : 0 < size) (bound : size ≤ kmemSize) (call : kmemAlloc A k size = (p, k'))
    (given : p ≠ 0) : ∃ regions', Inv A k' (⟨p, roundPage size⟩ :: fixed) live chunks regions' := by
  have round : roundPage size = (size + 4095) / 4096 * 4096 := by
    apply roundPage_eq
    simp only [kmemSize, clBytes, pageSize] at bound
    omega
  have page : roundPage size % pageSize = 0 := by
    rw [round]
    exact Nat.mul_mod_left _ _
  have grown : 0 < roundPage size := by
    rw [round]
    omega
  have offs := inv.offsLe
  have room : k.kmemoffs + roundPage size ≤ kmemSize := by
    by_contra full
    have exceeds : wrap (roundPage size + k.kmemoffs) > kmemSize := by
      simp only [kmemSize, clBytes, pageSize] at *
      rw [wrap_of_lt (by omega)]
      omega
    simp only [kmemAlloc, if_pos exceeds, Prod.mk.injEq] at call
    exact given call.1.symm
  have fitting : ¬ wrap (roundPage size + k.kmemoffs) > kmemSize := by
    simp only [kmemSize, clBytes, pageSize] at *
    rw [wrap_of_lt (by omega)]
    omega
  simp only [kmemAlloc, if_neg fitting, Prod.mk.injEq] at call
  obtain ⟨rfl, rfl⟩ := call
  exact ⟨_, inv.take_pages grown page room⟩

theorem Reachable.inv {ok : Nat → Prop} (fits : ∀ size, ok size → size + 4095 < 2^32)
    (run : Reachable A ok k fixed live) : ∃ chunks regions, Inv A k fixed live chunks regions := by
  induction run with
  | start init =>
    obtain ⟨regions, inv⟩ := Inv.init A _ _
    rw [init] at inv
    exact ⟨_, regions, inv⟩
  | fail before allowed call ih =>
    obtain ⟨chunks, regions, inv⟩ := ih
    rcases inv.malloc (fits _ allowed) with kept | ⟨p, k', served, result⟩
    · rw [kept, Prod.mk.injEq] at call
      exact ⟨chunks, regions, call.2 ▸ inv⟩
    · rw [served, Prod.mk.injEq] at call
      exact absurd call.1 result.nonzero
  | malloc before allowed call given ih =>
    obtain ⟨chunks, regions, inv⟩ := ih
    rcases inv.malloc (fits _ allowed) with kept | ⟨p, k', served, result⟩
    · rw [kept, Prod.mk.injEq] at call
      exact absurd call.1.symm given
    · rw [served, Prod.mk.injEq] at call
      obtain ⟨rfl, rfl⟩ := call
      exact result.inv
  | free before held small call ih =>
    obtain ⟨chunks, regions, inv⟩ := ih
    obtain ⟨freed, result⟩ := inv.push_chunk held small rfl
    rw [freed, Option.some.injEq] at call
    exact ⟨_, _, call ▸ result⟩
  | pages before positive bound call given ih =>
    obtain ⟨chunks, regions, inv⟩ := ih
    exact ⟨chunks, inv.pages positive bound call given⟩
  | store before held frame ih =>
    obtain ⟨chunks, regions, inv⟩ := ih
    exact ⟨chunks, regions, inv.store held frame⟩

def free (chunks : Nat → List Nat) : List Region :=
  indices.flatMap (fun i => (chunks i).map (fun a => ⟨a, 2^i⟩))

def parts (fixed : List Region) (live : List Holding) (chunks : Nat → List Nat) : List Region :=
  fixed ++ live.map Holding.region ++ free chunks

structure Sound (A : Arena) (k : State) (fixed : List Region) (live : List Holding) : Prop where
  lists : ∃ chunks : Nat → List Nat,
    (∀ i < nrBuckets, Linked k.next (k.buckets i).kbNext (chunks i) ∧ (chunks i).Nodup ∧
      (∀ a ∈ (chunks i).getLast?, (k.buckets i).kbLast = a) ∧
      ∀ a ∈ chunks i, i ∈ indices ∧ (k.kmemusage (usageIndex A a)).kuIndex = i) ∧
    (parts fixed live chunks).Pairwise Region.Apart ∧
    ∀ r ∈ parts fixed live chunks, A.kmembase ≤ r.addr ∧ r.stop ≤ A.kmembase + kmemSize
  holds : ∀ h ∈ live, h.nbytes ≤ h.region.size
  frees : ∀ h ∈ live, h.nbytes ≤ maxAllocSave → (kmemFree A k h.ptr).isSome

theorem free_addr (chunks : Nat → List Nat) : (free chunks).map (·.addr) = pool chunks := by
  rw [free, pool, List.map_flatMap]
  apply List.flatMap_congr
  intro i _
  rw [List.map_map]
  exact List.map_id _

theorem parts_addr (fixed : List Region) (live : List Holding) (chunks : Nat → List Nat) :
    (parts fixed live chunks).map (·.addr) = owned fixed live chunks := by
  simp only [parts, owned, List.map_append, List.map_map, free_addr]
  rfl

theorem Inv.parts_mem (inv : Inv A k fixed live chunks regions) {r : Region}
    (member : r ∈ parts fixed live chunks) : r ∈ regions := by
  simp only [parts, free, List.mem_append, List.mem_map, List.mem_flatMap] at member
  rcases member with (member | ⟨h, memberH, rfl⟩) | ⟨i, memberI, a, memberA, rfl⟩
  · exact inv.fixedMem r member
  · exact (inv.held h memberH).1
  · exact (inv.chunk i memberI a memberA).1

theorem Inv.parts_apart (inv : Inv A k fixed live chunks regions) :
    (parts fixed live chunks).Pairwise Region.Apart := by
  apply Region.pairwise_of_subset inv.apart
  · apply List.Nodup.of_map (·.addr)
    rw [parts_addr]
    exact inv.nodup
  · intro r member
    exact inv.parts_mem member

theorem nbytes_le_blockSize {nbytes : Nat} (bound : nbytes + 4095 < 2^32) : nbytes ≤ blockSize nbytes := by
  unfold blockSize
  split
  · exact (bucketIndex_bounds (by assumption)).2.2
  · rw [roundCluster_eq bound]
    omega

def listed (chunks : Nat → List Nat) (i : Nat) : List Nat := if i ∈ indices then chunks i else []

theorem free_listed (chunks : Nat → List Nat) : free (listed chunks) = free chunks := by
  apply List.flatMap_congr
  intro i member
  simp only [listed, if_pos member]

theorem parts_listed : parts fixed live (listed chunks) = parts fixed live chunks := by
  rw [parts, free_listed, parts]

theorem Inv.sound (inv : Inv A k fixed live chunks regions)
    (bound : ∀ h ∈ live, h.nbytes + 4095 < 2^32) : Sound A k fixed live := by
  constructor
  · refine ⟨listed chunks, ?_, ?_, ?_⟩
    · intro i _
      by_cases member : i ∈ indices
      · simp only [listed, if_pos member]
        exact ⟨inv.linked i member, inv.chunks_nodup member, inv.last i member,
          fun a memberA => ⟨member, (inv.chunk i member a memberA).2⟩⟩
      · simp only [listed, if_neg member]
        exact ⟨inv.spare i member, .nil, nofun, nofun⟩
    · rw [parts_listed]
      exact inv.parts_apart
    · intro r member
      rw [parts_listed] at member
      obtain ⟨low, high, _⟩ := inv.bounds r (inv.parts_mem member)
      have := inv.offsLe
      exact ⟨low, by omega⟩
  · intro h member
    exact nbytes_le_blockSize (bound h member)
  · intro h member small
    rw [(inv.push_chunk member small rfl).1]
    rfl

theorem Reachable.live_ok {ok : Nat → Prop} (run : Reachable A ok k fixed live) :
    ∀ h ∈ live, ok h.nbytes := by
  induction run with
  | start => nofun
  | fail _ _ _ ih => exact ih
  | malloc _ allowed _ _ ih =>
    intro h member
    rcases List.mem_cons.mp member with rfl | member
    · exact allowed
    · exact ih h member
  | free _ _ _ _ ih =>
    intro h member
    exact ih h (List.mem_of_mem_erase member)
  | pages _ _ _ _ _ ih => exact ih
  | store _ _ _ ih => exact ih

theorem Reachable.table_mem {ok : Nat → Prop} (run : Reachable A ok k fixed live) : table A ∈ fixed := by
  induction run with
  | start => exact List.mem_singleton_self _
  | fail _ _ _ ih => exact ih
  | malloc _ _ _ _ ih => exact ih
  | free _ _ _ _ ih => exact ih
  | pages _ _ _ _ _ ih => exact List.mem_cons_of_mem _ ih
  | store _ _ _ ih => exact ih

/-- The bucket allocator keeps its promises along every run with requests up to `KMEM_SIZE`. -/
theorem buckets_sound (run : Reachable A (· ≤ kmemSize) k fixed live) :
    table A ∈ fixed ∧ Sound A k fixed live := by
  have fits : ∀ size, size ≤ kmemSize → size + 4095 < 2^32 := by
    intro size bound
    simp only [kmemSize, clBytes, pageSize] at bound
    omega
  obtain ⟨chunks, regions, inv⟩ := run.inv fits
  refine ⟨run.table_mem, inv.sound ?_⟩
  intro h member
  exact fits _ (run.live_ok h member)

def board : Arena := ⟨0x8b000000, by decide, by decide, by decide⟩

def booted : State := (kmeminit board (fun _ => ⟨0, 0⟩) (fun _ => 0)).2

theorem buckets_sound_first :
    (∃ k, kmemFree board (kmemMalloc board booted 100).2 0x8b010000 = some k ∧
      Sound board k [table board] []) := by
  have start : Reachable board (· ≤ kmemSize) booted [table board] [] :=
    .start (show kmeminit board (fun _ => ⟨0, 0⟩) (fun _ => 0) = (_, booted) from rfl)
  have given : (kmemMalloc board booted 100).1 = 0x8b010000 := by decide +kernel
  have taken : Reachable board (· ≤ kmemSize) (kmemMalloc board booted 100).2 [table board]
      [⟨0x8b010000, 100⟩] := by
    apply start.malloc (by decide) (Prod.ext given rfl) (by decide)
  have freed := (buckets_sound taken).2.frees ⟨0x8b010000, 100⟩ (by simp) (by decide)
  obtain ⟨k, call⟩ := Option.isSome_iff_exists.mp freed
  refine ⟨k, call, (buckets_sound ?_).2⟩
  have given := taken.free (h := ⟨0x8b010000, 100⟩) (by simp) (by decide) call
  simpa using given

end Embryo.Kmem
