import Embryo.Kmem.Carve

namespace Embryo.Kmem

open Embryo.Machine

/-- What a caller holds: the address `kmem_malloc` returned and the size it asked for. -/
structure Holding where
  ptr : Nat
  nbytes : Nat
deriving DecidableEq, Repr

def blockSize (nbytes : Nat) : Nat :=
  if nbytes ≤ maxAllocSave then 2^bucketIndex nbytes else roundCluster nbytes

def Holding.region (h : Holding) : Region := ⟨h.ptr, blockSize h.nbytes⟩

def Holding.index (h : Holding) : Int :=
  if h.nbytes ≤ maxAllocSave then bucketIndex h.nbytes else ((nrBuckets - 1 : Nat) : Int)

def indices : List Nat := List.range' minBucket (nrBuckets - 1 - minBucket)

theorem mem_indices {i : Nat} : i ∈ indices ↔ minBucket ≤ i ∧ i < nrBuckets - 1 := by
  simp only [indices, List.mem_range'_1, minBucket, nrBuckets]

def pool (chunks : Nat → List Nat) : List Nat := indices.flatMap chunks

theorem pool_update (chunks : Nat → List Nat) {i : Nat} (member : i ∈ indices) (nodes : List Nat) :
    (pool (Function.update chunks i nodes)).Perm (nodes ++ (indices.erase i).flatMap chunks) := by
  have nodup : indices.Nodup := List.nodup_range'
  have split := (List.perm_cons_erase member).flatMap_right (Function.update chunks i nodes)
  rw [List.flatMap_cons, Function.update_self] at split
  have same : (indices.erase i).flatMap (Function.update chunks i nodes) =
      (indices.erase i).flatMap chunks := by
    apply List.flatMap_congr
    intro j memberJ
    have other : j ≠ i := fun same => (nodup.not_mem_erase) (same ▸ memberJ)
    rw [Function.update_of_ne other]
  rw [same] at split
  exact split

theorem pool_split (chunks : Nat → List Nat) {i : Nat} (member : i ∈ indices) :
    (pool chunks).Perm (chunks i ++ (indices.erase i).flatMap chunks) := by
  have := pool_update chunks member (chunks i)
  rwa [Function.update_eq_self] at this

/-- Where everything the arena has handed out starts: memory taken page-wise for good, the
    blocks callers hold, and the free chunks. -/
def owned (fixed : List Region) (live : List Holding) (chunks : Nat → List Nat) : List Nat :=
  fixed.map (·.addr) ++ live.map (·.ptr) ++ pool chunks

/-- The allocator's invariant. `regions` are the pieces the used part of the arena has been
    cut into, `chunks i` the free ones on bucket `i`. -/
structure Inv (A : Arena) (k : State) (fixed : List Region) (live : List Holding)
    (chunks : Nat → List Nat) (regions : List Region) : Prop where
  offsLe : k.kmemoffs ≤ kmemSize
  offsPage : k.kmemoffs % pageSize = 0
  bounds : ∀ r ∈ regions, A.kmembase ≤ r.addr ∧ r.stop ≤ A.kmembase + k.kmemoffs ∧ 0 < r.size
  apart : regions.Pairwise Region.Apart
  linked : ∀ i ∈ indices, Linked k.next (k.buckets i).kbNext (chunks i)
  last : ∀ i ∈ indices, ∀ a ∈ (chunks i).getLast?, (k.buckets i).kbLast = a
  spare : ∀ i, i ∉ indices → (k.buckets i).kbNext = 0
  chunk : ∀ i ∈ indices, ∀ a ∈ chunks i, ⟨a, 2^i⟩ ∈ regions ∧
    (k.kmemusage (usageIndex A a)).kuIndex = i
  held : ∀ h ∈ live, h.region ∈ regions ∧ (k.kmemusage (usageIndex A h.ptr)).kuIndex = h.index
  fixedMem : ∀ r ∈ fixed, r ∈ regions
  nodup : (owned fixed live chunks).Nodup

section

variable {A : Arena} {k : State} {fixed : List Region} {live : List Holding}
  {chunks : Nat → List Nat} {regions : List Region}

theorem Inv.owned_region (inv : Inv A k fixed live chunks regions) {a : Nat}
    (member : a ∈ owned fixed live chunks) : ∃ r ∈ regions, r.addr = a := by
  simp only [owned, List.mem_append, List.mem_map] at member
  rcases member with (⟨r, memberR, rfl⟩ | ⟨h, memberH, rfl⟩) | member
  · exact ⟨r, inv.fixedMem r memberR, rfl⟩
  · exact ⟨h.region, (inv.held h memberH).1, rfl⟩
  · obtain ⟨i, memberI, memberA⟩ := List.mem_flatMap.mp member
    exact ⟨_, (inv.chunk i memberI a memberA).1, rfl⟩

theorem Inv.perm (inv : Inv A k fixed live chunks regions) {fixed' : List Region} {live' : List Holding}
    (permF : fixed.Perm fixed') (permL : live.Perm live') : Inv A k fixed' live' chunks regions := by
  refine { inv with held := ?_, fixedMem := ?_, nodup := ?_ }
  · intro h member
    exact inv.held h (permL.symm.subset member)
  · intro r member
    exact inv.fixedMem r (permF.symm.subset member)
  · have moved : (owned fixed live chunks).Perm (owned fixed' live' chunks) :=
      ((permF.map _).append (permL.map _)).append_right _
    exact moved.nodup_iff.mp inv.nodup

theorem Inv.owned_lt (inv : Inv A k fixed live chunks regions) {a : Nat}
    (member : a ∈ owned fixed live chunks) :
    A.kmembase ≤ a ∧ a < A.kmembase + k.kmemoffs ∧ usageIndex A a < k.kmemoffs / pageSize := by
  obtain ⟨r, memberR, rfl⟩ := inv.owned_region member
  obtain ⟨low, high, positive⟩ := inv.bounds r memberR
  have page := inv.offsPage
  simp only [Region.stop, usageIndex, pageSize] at *
  omega

theorem usageIndex_fresh (A : Arena) (offs j : Nat) (inside : j < pageSize)
    (page : offs % pageSize = 0) : usageIndex A (A.kmembase + offs + j) = offs / pageSize := by
  simp only [usageIndex, pageSize] at *
  omega

theorem Inv.take_pages (inv : Inv A k fixed live chunks regions) {size : Nat} (positive : 0 < size)
    (page : size % pageSize = 0) (room : k.kmemoffs + size ≤ kmemSize) :
    Inv A { k with kmemoffs := k.kmemoffs + size } (⟨A.kmembase + k.kmemoffs, size⟩ :: fixed)
      live chunks (⟨A.kmembase + k.kmemoffs, size⟩ :: regions) := by
  have offsPage := inv.offsPage
  constructor
  · exact room
  · simp only [pageSize] at *
    omega
  · intro r member
    rcases List.mem_cons.mp member with rfl | member
    · simp only [Region.stop]
      omega
    · obtain ⟨low, high, size⟩ := inv.bounds r member
      refine ⟨low, ?_, size⟩
      simp only
      omega
  · refine List.pairwise_cons.mpr ⟨?_, inv.apart⟩
    intro r member
    right
    exact (inv.bounds r member).2.1
  · exact inv.linked
  · exact inv.last
  · exact inv.spare
  · intro i memberI a memberA
    obtain ⟨region, index⟩ := inv.chunk i memberI a memberA
    exact ⟨List.mem_cons_of_mem _ region, index⟩
  · intro h member
    obtain ⟨region, index⟩ := inv.held h member
    exact ⟨List.mem_cons_of_mem _ region, index⟩
  · intro r member
    rcases List.mem_cons.mp member with rfl | member
    · simp
    · exact List.mem_cons_of_mem _ (inv.fixedMem r member)
  · refine List.nodup_cons.mpr ⟨fun member => ?_, inv.nodup⟩
    have := (inv.owned_lt (a := A.kmembase + k.kmemoffs) member).2.1
    omega

theorem Inv.mark_fresh (inv : Inv A k fixed live chunks regions) {index : Nat} (mark : Kmemusage)
    (fresh : k.kmemoffs / pageSize ≤ index) {a : Nat} (member : a ∈ owned fixed live chunks) :
    Function.update k.kmemusage index mark (usageIndex A a) = k.kmemusage (usageIndex A a) := by
  have := (inv.owned_lt member).2.2
  rw [Function.update_of_ne (by omega)]

theorem mem_owned_live {h : Holding} (member : h ∈ live) : h.ptr ∈ owned fixed live chunks := by
  simp only [owned, List.mem_append, List.mem_map]
  exact .inl (.inr ⟨h, member, rfl⟩)

theorem mem_owned_chunk {i a : Nat} (memberI : i ∈ indices) (member : a ∈ chunks i) :
    a ∈ owned fixed live chunks := by
  simp only [owned, List.mem_append, pool, List.mem_flatMap]
  exact .inr ⟨i, memberI, member⟩

theorem Inv.chunks_nodup (inv : Inv A k fixed live chunks regions) {i : Nat} (memberI : i ∈ indices) :
    (chunks i).Nodup :=
  (List.nodup_append.mp ((pool_split chunks memberI).nodup_iff.mp
    (List.nodup_append.mp inv.nodup).2.1)).1

theorem Inv.pop_chunk (inv : Inv A k fixed live chunks regions) {i a nbytes : Nat} {rest : List Nat}
    (memberI : i ∈ indices) (nodes : chunks i = a :: rest) (small : nbytes ≤ maxAllocSave)
    (index : bucketIndex nbytes = i) :
    pop k i = (a, { k with buckets := Function.update k.buckets i ⟨k.next a, (k.buckets i).kbLast⟩ }) ∧
      Inv A { k with buckets := Function.update k.buckets i ⟨k.next a, (k.buckets i).kbLast⟩ }
        fixed (⟨a, nbytes⟩ :: live) (Function.update chunks i rest) regions := by
  have linked := inv.linked i memberI
  rw [nodes] at linked
  obtain ⟨first, nonzero, tail⟩ := linked
  refine ⟨by simp only [pop, first], ?_⟩
  have chunkA := inv.chunk i memberI a (by simp [nodes])
  constructor
  · exact inv.offsLe
  · exact inv.offsPage
  · exact inv.bounds
  · exact inv.apart
  · intro j memberJ
    by_cases same : j = i
    · subst j
      simpa using tail
    · simpa [same] using inv.linked j memberJ
  · intro j memberJ b memberB
    by_cases same : j = i
    · subst j
      simp only [Function.update_self] at memberB ⊢
      apply inv.last i memberI
      rw [nodes]
      cases rest with
      | nil => simp at memberB
      | cons c rest => simpa using memberB
    · simp only [Function.update_of_ne same] at memberB ⊢
      exact inv.last j memberJ b memberB
  · intro j outside
    have other : j ≠ i := fun same => outside (same ▸ memberI)
    simpa only [Function.update_of_ne other] using inv.spare j outside
  · intro j memberJ b memberB
    by_cases same : j = i
    · subst j
      simp only [Function.update_self] at memberB
      exact inv.chunk i memberI b (by simp [nodes, memberB])
    · simp only [Function.update_of_ne same] at memberB
      exact inv.chunk j memberJ b memberB
  · intro h member
    rcases List.mem_cons.mp member with rfl | member
    · simp only [Holding.region, Holding.index, blockSize, small, if_true, index]
      exact chunkA
    · exact inv.held h member
  · exact inv.fixedMem
  · have before := inv.nodup
    have moved : (owned fixed live chunks).Perm
        (owned fixed (⟨a, nbytes⟩ :: live) (Function.update chunks i rest)) := by
      have old := pool_split chunks memberI
      have new := pool_update chunks memberI rest
      rw [nodes, List.cons_append] at old
      simp only [owned, List.append_assoc, List.map_cons, List.cons_append]
      apply List.Perm.append_left
      refine (old.append_left _).trans ?_
      refine (List.perm_middle).trans ?_
      exact (new.symm.append_left _).cons a
    exact moved.nodup_iff.mp before

theorem Inv.kbLast_eq (inv : Inv A k fixed live chunks regions) {i : Nat} (memberI : i ∈ indices)
    (some : chunks i ≠ []) : (k.buckets i).kbLast = (chunks i).getLast some := by
  apply inv.last i memberI
  rw [List.getLast?_eq_some_getLast some]
  rfl

theorem Inv.held_not_free (inv : Inv A k fixed live chunks regions) {h : Holding} (held : h ∈ live)
    {i : Nat} (memberI : i ∈ indices) : h.ptr ∉ chunks i := by
  intro member
  have split := List.nodup_append.mp inv.nodup
  apply split.2.2 h.ptr ?_ h.ptr (List.mem_flatMap.mpr ⟨i, memberI, member⟩) rfl
  simp only [List.mem_append, List.mem_map]
  exact .inr ⟨h, held, rfl⟩

theorem Inv.chunk_unique (inv : Inv A k fixed live chunks regions) {i j a : Nat}
    (memberI : i ∈ indices) (memberJ : j ∈ indices) (inI : a ∈ chunks i) (inJ : a ∈ chunks j) :
    i = j := by
  have markI := (inv.chunk i memberI a inI).2
  have markJ := (inv.chunk j memberJ a inJ).2
  rw [markI] at markJ
  exact_mod_cast markJ

def pushed (k : State) (i va : Nat) : State :=
  { k with
    buckets := Function.update k.buckets i
      ⟨if (k.buckets i).kbNext = 0 then va else (k.buckets i).kbNext, va⟩
    next := Function.update
      (if (k.buckets i).kbNext = 0 then k.next else Function.update k.next (k.buckets i).kbLast va) va 0 }

theorem kmemFree_marked {i va : Nat} (memberI : i ∈ indices)
    (mark : (k.kmemusage (usageIndex A va)).kuIndex = (i : Int)) :
    kmemFree A k va = some (pushed k i va) := by
  obtain ⟨low, high⟩ := mem_indices.mp memberI
  have managed : ¬ ((k.kmemusage (usageIndex A va)).kuIndex < (minBucket : Int) ∨
      (k.kmemusage (usageIndex A va)).kuIndex ≥ (nrBuckets : Int)) := by
    rw [mark]
    simp only [minBucket, nrBuckets] at *
    omega
  have small : (k.kmemusage (usageIndex A va)).kuIndex < ((nrBuckets - 1 : Nat) : Int) := by
    rw [mark]
    omega
  have index : (k.kmemusage (usageIndex A va)).kuIndex.toNat = i := by
    rw [mark, Int.toNat_natCast]
  simp only [kmemFree, if_neg managed, if_pos small, index, pushed]
  by_cases empty : (k.buckets i).kbNext = 0
  · simp only [empty, if_true]
  · simp only [empty, if_false]

theorem Inv.push_links (inv : Inv A k fixed live chunks regions) {h : Holding} (held : h ∈ live)
    {i : Nat} (memberI : i ∈ indices) :
    Linked (pushed k i h.ptr).next ((pushed k i h.ptr).buckets i).kbNext (chunks i ++ [h.ptr]) := by
  have linked := inv.linked i memberI
  have nodup := inv.chunks_nodup memberI
  have outside := inv.held_not_free held memberI
  have nonzero : h.ptr ≠ 0 := by
    have := (inv.owned_lt (mem_owned_live held)).1
    have := A.positive
    omega
  simp only [pushed, Function.update_self]
  by_cases empty : chunks i = []
  · have zero := linked.first_eq_zero_iff.mpr empty
    simp only [empty, List.nil_append, zero, if_true]
    exact ⟨rfl, nonzero, by simp [Linked]⟩
  · have some := mt linked.first_eq_zero_iff.mp empty
    have split := List.dropLast_append_getLast empty
    have tail := inv.kbLast_eq memberI empty
    simp only [some, if_false, tail]
    have ends : (chunks i).getLast empty ∈ chunks i := List.getLast_mem empty
    generalize (chunks i).getLast empty = last at *
    generalize (chunks i).dropLast = nodes at *
    rw [← split] at linked nodup outside ⊢
    simp only [List.mem_append, List.mem_singleton, not_or] at outside
    apply linked.append nodup nonzero
    · rw [Function.update_of_ne (Ne.symm outside.2), Function.update_self]
    · rw [Function.update_self]
    · intro b memberB
      have otherH : b ≠ h.ptr := fun same => outside.1 (same ▸ memberB)
      have otherL : b ≠ last := by
        intro same
        exact (List.nodup_append.mp nodup).2.2 b memberB last (by simp) same
      rw [Function.update_of_ne otherH, Function.update_of_ne otherL]

theorem Inv.push_frame (inv : Inv A k fixed live chunks regions) {h : Holding} (held : h ∈ live)
    {i j : Nat} (memberI : i ∈ indices) (memberJ : j ∈ indices) (other : j ≠ i) :
    Linked (pushed k i h.ptr).next (k.buckets j).kbNext (chunks j) := by
  apply (inv.linked j memberJ).congr
  intro b memberB
  have otherH : b ≠ h.ptr := fun same => inv.held_not_free held memberJ (same ▸ memberB)
  simp only [pushed]
  rw [Function.update_of_ne otherH]
  split
  · rfl
  · rename_i some
    have nonempty : chunks i ≠ [] := mt (inv.linked i memberI).first_eq_zero_iff.mpr some
    have otherL : b ≠ (k.buckets i).kbLast := by
      intro same
      have inI : b ∈ chunks i := by
        rw [same, inv.kbLast_eq memberI nonempty]
        exact List.getLast_mem nonempty
      exact other (inv.chunk_unique memberJ memberI memberB inI)
    rw [Function.update_of_ne otherL]

theorem owned_push {h : Holding} (held : h ∈ live) {i : Nat} (memberI : i ∈ indices) :
    (owned fixed live chunks).Perm
      (owned fixed (live.erase h) (Function.update chunks i (chunks i ++ [h.ptr]))) := by
  have old := pool_split chunks memberI
  have new := pool_update chunks memberI (chunks i ++ [h.ptr])
  have lives := (List.perm_cons_erase held).map Holding.ptr
  simp only [owned, List.append_assoc]
  apply List.Perm.append_left
  apply (lives.append_right _).trans
  rw [List.map_cons, List.cons_append]
  apply List.perm_middle.symm.trans
  apply List.Perm.append_left
  apply (old.cons _).trans
  apply List.Perm.trans _ new.symm
  rw [List.append_assoc, List.singleton_append]
  exact List.perm_middle.symm

theorem Inv.push_chunk (inv : Inv A k fixed live chunks regions) {h : Holding} (held : h ∈ live)
    (small : h.nbytes ≤ maxAllocSave) {i : Nat} (bucket : bucketIndex h.nbytes = i) :
    kmemFree A k h.ptr = some (pushed k i h.ptr) ∧
      Inv A (pushed k i h.ptr) fixed (live.erase h) (Function.update chunks i (chunks i ++ [h.ptr]))
        regions := by
  obtain ⟨low, high, _⟩ := bucketIndex_bounds small
  rw [bucket] at low high
  have memberI : i ∈ indices := mem_indices.mpr ⟨low, high⟩
  obtain ⟨region, mark⟩ := inv.held h held
  rw [Holding.index, if_pos small, bucket] at mark
  refine ⟨kmemFree_marked memberI mark, ?_⟩
  constructor
  · exact inv.offsLe
  · exact inv.offsPage
  · exact inv.bounds
  · exact inv.apart
  · intro j memberJ
    by_cases same : j = i
    · rw [same, Function.update_self]
      exact inv.push_links held memberI
    · have kept := inv.push_frame held memberI memberJ same
      rw [Function.update_of_ne same]
      simpa only [pushed, Function.update_of_ne same] using kept
  · intro j memberJ b memberB
    by_cases same : j = i
    · rw [same] at memberB ⊢
      simpa [pushed] using memberB
    · simp only [pushed, Function.update_of_ne same] at memberB ⊢
      exact inv.last j memberJ b memberB
  · intro j outside
    have other : j ≠ i := fun same => outside (same ▸ memberI)
    simpa only [pushed, Function.update_of_ne other] using inv.spare j outside
  · intro j memberJ b memberB
    by_cases same : j = i
    · rw [same, Function.update_self, List.mem_append, List.mem_singleton] at memberB
      rw [same]
      rcases memberB with memberB | rfl
      · exact inv.chunk i memberI b memberB
      · refine ⟨?_, mark⟩
        simpa only [Holding.region, blockSize, small, if_true, bucket] using region
    · rw [Function.update_of_ne same] at memberB
      exact inv.chunk j memberJ b memberB
  · intro e member
    exact inv.held e (List.mem_of_mem_erase member)
  · exact inv.fixedMem
  · exact (owned_push held memberI).nodup_iff.mp inv.nodup

end

end Embryo.Kmem
