import Embryo.Machine.Word

namespace Embryo.Kmem

open Embryo.Machine

def pageSize : Nat := 4096
def clBytes : Nat := pageSize
def kmemSize : Nat := 64 * 1024 * 1024 / clBytes * clBytes
def minBucket : Nat := 4
def minAllocSize : Nat := 2^minBucket
def maxAllocSave : Nat := minAllocSize * 32 * 1024
def nrBuckets : Nat := minBucket + 16 + 1

def roundPage (size : Nat) : Nat := wrap (size + (pageSize - 1)) / pageSize * pageSize
def roundCluster (size : Nat) : Nat := wrap (size + (clBytes - 1)) / clBytes * clBytes

def bucketIndex (size : Nat) : Nat :=
  if size ≤ 128 * minAllocSize then
    if size ≤ 8 * minAllocSize then
      if size ≤ 2 * minAllocSize then
        if size ≤ 1 * minAllocSize then minBucket + 0 else minBucket + 1
      else
        if size ≤ 4 * minAllocSize then minBucket + 2 else minBucket + 3
    else
      if size ≤ 32 * minAllocSize then
        if size ≤ 16 * minAllocSize then minBucket + 4 else minBucket + 5
      else
        if size ≤ 64 * minAllocSize then minBucket + 6 else minBucket + 7
  else
    if size ≤ 2048 * minAllocSize then
      if size ≤ 512 * minAllocSize then
        if size ≤ 256 * minAllocSize then minBucket + 8 else minBucket + 9
      else
        if size ≤ 1024 * minAllocSize then minBucket + 10 else minBucket + 11
    else
      if size ≤ 8192 * minAllocSize then
        if size ≤ 4096 * minAllocSize then minBucket + 12 else minBucket + 13
      else
        if size ≤ 16384 * minAllocSize then minBucket + 14 else minBucket + 15

/-- The place `kmeminit` gives to the arena; `kmemlimit` is `kmembase + KMEM_SIZE`. -/
structure Arena where
  kmembase : Nat
  positive : 0 < kmembase
  aligned : kmembase % pageSize = 0
  fits : kmembase + kmemSize < 2^32

structure Kmemusage where
  kuIndex : Int
  kuUn : Nat

structure Kmembucket where
  kbNext : Nat
  kbLast : Nat
deriving DecidableEq, Repr

/-- The allocator's variables, its usage table, and the `struct freelist` links that lie in
    the memory it manages. -/
structure State where
  kmemoffs : Nat
  kmemusage : Nat → Kmemusage
  buckets : Nat → Kmembucket
  next : Nat → Nat

def usageIndex (A : Arena) (va : Nat) : Nat := (va - A.kmembase) / pageSize

def kmemAlloc (A : Arena) (k : State) (size : Nat) : Nat × State :=
  let size := roundPage size
  if wrap (size + k.kmemoffs) > kmemSize then (0, k)
  else (A.kmembase + k.kmemoffs, { k with kmemoffs := k.kmemoffs + size })

structure Carving where
  va : Nat
  next : Nat → Nat
  npieces : Nat

/-- The loop itself. One pass per chunk reaches its `break`. -/
def carve (allocsize limit : Nat) : Nat → Carving → Carving
  | 0, c => c
  | passes + 1, c =>
    if c.va + allocsize ≥ limit then c
    else carve allocsize limit passes
      ⟨c.va + allocsize, Function.update c.next c.va (c.va + allocsize), c.npieces + 1⟩

def refill (A : Arena) (k : State) (index va : Nat) : State :=
  let allocsize := 2^index
  let cbytes := roundCluster allocsize
  let c := carve allocsize (va + cbytes) (cbytes / allocsize) ⟨va, k.next, 1⟩
  { k with
    kmemusage := Function.update k.kmemusage (usageIndex A va) ⟨index, c.npieces⟩
    buckets := Function.update k.buckets index ⟨va, c.va⟩
    next := Function.update c.next c.va 0 }

def pop (k : State) (index : Nat) : Nat × State :=
  let va := (k.buckets index).kbNext
  (va, { k with buckets := Function.update k.buckets index ⟨k.next va, (k.buckets index).kbLast⟩ })

def kmemMalloc (A : Arena) (k : State) (size : Nat) : Nat × State :=
  if size ≤ maxAllocSave then
    let index := bucketIndex size
    if (k.buckets index).kbNext = 0 then
      let (va, k) := kmemAlloc A k (roundCluster (2^index))
      if va = 0 then (0, k) else pop (refill A k index va) index
    else pop k index
  else
    let cbytes := roundCluster size
    if cbytes > kmemSize then (0, k)
    else
      let (va, k) := kmemAlloc A k cbytes
      if va = 0 then (0, k)
      else (va, { k with
        kmemusage := Function.update k.kmemusage (usageIndex A va)
          ⟨((nrBuckets - 1 : Nat) : Int), wrap (cbytes + (clBytes - 1)) / clBytes⟩ })

theorem kmemMalloc_eq (A : Arena) (k : State) (size : Nat) : kmemMalloc A k size =
    if size ≤ maxAllocSave then
      if (k.buckets (bucketIndex size)).kbNext = 0 then
        if (kmemAlloc A k (roundCluster (2^bucketIndex size))).1 = 0 then
          (0, (kmemAlloc A k (roundCluster (2^bucketIndex size))).2)
        else pop (refill A (kmemAlloc A k (roundCluster (2^bucketIndex size))).2 (bucketIndex size)
          (kmemAlloc A k (roundCluster (2^bucketIndex size))).1) (bucketIndex size)
      else pop k (bucketIndex size)
    else if roundCluster size > kmemSize then (0, k)
    else if (kmemAlloc A k (roundCluster size)).1 = 0 then (0, (kmemAlloc A k (roundCluster size)).2)
    else ((kmemAlloc A k (roundCluster size)).1, { (kmemAlloc A k (roundCluster size)).2 with
        kmemusage := Function.update (kmemAlloc A k (roundCluster size)).2.kmemusage
          (usageIndex A (kmemAlloc A k (roundCluster size)).1)
          ⟨((nrBuckets - 1 : Nat) : Int), wrap (roundCluster size + (clBytes - 1)) / clBytes⟩ }) := by
  generalize given : kmemMalloc A k size = result
  rw [kmemMalloc] at given
  dsimp -iota only at given
  revert given
  -- by cases, so that nothing of what is given is computed
  cases kmemAlloc A k (roundCluster (2^bucketIndex size)) with
  | mk va k₁ =>
    cases kmemAlloc A k (roundCluster size) with
    | mk va' k₂ => exact Eq.symm

/-- `kmem_free`. The result is `none` where `__kmem_free` panics. -/
def kmemFree (A : Arena) (k : State) (va : Nat) : Option State :=
  let ku := k.kmemusage (usageIndex A va)
  if ku.kuIndex < minBucket ∨ ku.kuIndex ≥ nrBuckets then some k
  else if ku.kuIndex < ((nrBuckets - 1 : Nat) : Int) then
    let index := ku.kuIndex.toNat
    let kb := k.buckets index
    let (first, next) :=
      if kb.kbNext = 0 then (va, k.next)
      else (kb.kbNext, Function.update k.next kb.kbLast va)
    some { k with
      buckets := Function.update k.buckets index ⟨first, va⟩
      next := Function.update next va 0 }
  else none

def ncl : Nat := kmemSize / clBytes
def sizeofKmemusage : Nat := 4

/-- `__kmeminit` on the arena that `kmeminit` has set up: `buckets` is zero, the rest of the
    memory is whatever it was. -/
def kmeminit (A : Arena) (kmemusage : Nat → Kmemusage) (next : Nat → Nat) : Nat × State :=
  kmemAlloc A ⟨0, kmemusage, fun _ => ⟨0, 0⟩, next⟩ (ncl * sizeofKmemusage)

end Embryo.Kmem
