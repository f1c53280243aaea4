import Embryo.Block.File
import Embryo.Machine.Word

namespace Embryo.Fs

open Embryo.Machine Embryo.Block

def sectorSz : Nat := 512
def ext2NdirBlocks : Nat := 12
def ext2IndBlock : Nat := 12
def ext2DindBlock : Nat := 13

/-- The part of an `ext2_file` that its reads use: the device, where the partition starts, and the
    block size of `ext2_setup_super_info`. `alloc` says for which reads `kmem_malloc` has a buffer,
    `malloc` whether there is memory for the two index blocks (0 and 1), an inode (2) and a
    directory (3). -/
structure Volume where
  dev : BlockDevice
  startSect : Nat
  logBlockSize : Nat
  fits : logBlockSize ≤ 21
  alloc : Nat → Bool
  malloc : Nat → Bool

namespace Volume

def iLogBlkSz (vol : Volume) : Nat := 10 + vol.logBlockSize

def iBlkSz (vol : Volume) : Nat := 2^vol.iLogBlkSz

def perBlock (vol : Volume) : Nat := vol.iBlkSz / 4

def blockOff (vol : Volume) (blk : Nat) : Nat := vol.startSect * sectorSz + blk * vol.iBlkSz

end Volume

/-- `bfo_lseek` and `bfo_read`; nothing is returned unless all bytes have been read. The result of
    the seek is not looked at. -/
def readAt (vol : Volume) (bf : BlockFile) (off len : Nat) : Option (Option (List UInt8) × BlockFile) :=
  match blkfileRead vol.dev (vol.alloc off) (blkfileLseek bf off .set).2 len with
  | none => none
  | some (count, data, bf) => some (if count = some len then some data else none, bf)

structure Reading where
  bf : BlockFile
  buf : List UInt8
  len : Nat
  pos : Nat

def Reading.fetch (vol : Volume) (r : Reading) (off size : Nat) : Option (Bool × Reading) :=
  match readAt vol r.bf off size with
  | none => none
  | some (none, bf) => some (false, { r with bf })
  | some (some data, bf) => some (true, ⟨bf, r.buf ++ data, r.len - size, r.pos + size⟩)

/-- The loop of `ext2_read_data_blk_by_index`: `residCnt` blocks from `startIdx` on are to be read at
    `off` in one go. `idx_addr` is the address of entry `startIdx`. -/
structure Merging where
  r : Reading
  startIdx : Nat
  residSize : Nat
  residCnt : Nat
  off : Nat

def Merging.sizes (vol : Volume) (g : Merging) : Nat × Nat :=
  if g.residSize = 0 then
    if vol.iBlkSz > g.r.len then (g.r.len, g.residCnt) else (vol.iBlkSz, 1)
  else (g.residSize, g.residCnt)

def mergePass (vol : Volume) (table : Nat → Nat) (endIdx : Nat) (g : Merging) :
    Option (Pass Merging (Bool × Merging)) :=
  let i := g.startIdx + g.residCnt
  if g.r.len ≠ 0 ∧ g.residSize < g.r.len ∧ i ≤ endIdx then
    if i < endIdx ∧ wrap (table i + 1) = table (i + 1) then
      if wrap (g.residSize + vol.iBlkSz) > g.r.len then some (.again { g with residSize := g.r.len })
      else some (.again { g with residSize := wrap (g.residSize + vol.iBlkSz), residCnt := g.residCnt + 1 })
    else
      let (size, cnt) := g.sizes vol
      match g.r.fetch vol g.off size with
      | none => none
      | some (false, r) => some (.leave (false, { g with r }))
      | some (true, r) => some (.again ⟨r, g.startIdx + cnt, 0, 0, vol.blockOff (table (g.startIdx + cnt))⟩)
  else some (.leave (true, g))

def merged (vol : Volume) (table : Nat → Nat) (endIdx : Nat) (g : Merging) : Option (Bool × Reading) :=
  match loop (mergePass vol table endIdx) (g.r.len + endIdx + 3) g with
  | none => none
  | some (false, g) => some (false, g.r)
  | some (true, g) =>
    if g.r.len = 0 then some (true, g.r)
    else if g.residSize ≠ 0 then g.r.fetch vol g.off g.residSize
    else some (true, g.r)

def ext2ReadDataBlkByIndex (vol : Volume) (startIdx endIdx : Nat) (table : Nat → Nat) (r : Reading) :
    Option (Bool × Reading) :=
  if startIdx > endIdx then some (true, r)
  else
    let head := vol.iBlkSz - r.pos % vol.iBlkSz
    let off := vol.blockOff (table startIdx) + r.pos % vol.iBlkSz
    if head > r.len then merged vol table endIdx ⟨r, startIdx, r.len, 0, off⟩
    else if head = vol.iBlkSz then merged vol table endIdx ⟨r, startIdx, 0, 0, off⟩
    else
      match r.fetch vol off head with
      | none => none
      | some (false, r) => some (false, r)
      | some (true, r) => merged vol table endIdx ⟨r, startIdx + 1, 0, 0, vol.blockOff (table (startIdx + 1))⟩

def indexTable (data : List UInt8) (i : Nat) : Nat := load32 (fun a => data.getD a 0) (4 * i)

structure Inode where
  iMode : Nat
  iSize : Nat
  iBlock : Nat → Nat
  sized : iSize < 2^32
  word : ∀ i, iBlock i < 2^32

/-- `(ulong)(pos >> i_log_blk_sz)`. -/
def Reading.blk (vol : Volume) (r : Reading) : Nat := wrap (r.pos / vol.iBlkSz)

def dindPass (vol : Volume) (idxBuf : Nat → Nat) (s : Nat × Reading) :
    Option (Pass (Nat × Reading) (Bool × Reading)) :=
  let (i, r) := s
  if r.len ≠ 0 ∧ i < vol.perBlock then
    match readAt vol r.bf (vol.blockOff (idxBuf i)) vol.iBlkSz with
    | none => none
    | some (none, bf) => some (.leave (false, { r with bf }))
    | some (some data, bf) =>
      let startIdx := wsub (wsub (r.blk vol) ext2NdirBlocks) (wrap ((i + 1) * vol.perBlock))
      match ext2ReadDataBlkByIndex vol startIdx (vol.perBlock - 1) (indexTable data) { r with bf } with
      | none => none
      | some (false, r) => some (.leave (false, r))
      | some (true, r) => some (.again (i + 1, r))
  else some (.leave (true, r))

def readIndirect (vol : Volume) (inode : Inode) (r : Reading) : Option (Bool × Reading) :=
  if r.len = 0 ∨ ¬ vol.malloc 0 then some (true, r)
  else
    match readAt vol r.bf (vol.blockOff (inode.iBlock ext2IndBlock)) vol.iBlkSz with
    | none => none
    | some (none, bf) => some (false, { r with bf })
    | some (some data, bf) =>
      ext2ReadDataBlkByIndex vol (wsub (r.blk vol) ext2NdirBlocks) (vol.perBlock - 1)
        (indexTable data) { r with bf }

def readDoubleIndirect (vol : Volume) (inode : Inode) (r : Reading) : Option (Bool × Reading) :=
  if r.len = 0 ∨ ¬ vol.malloc 0 ∨ ¬ vol.malloc 1 then some (true, r)
  else
    match readAt vol r.bf (vol.blockOff (inode.iBlock ext2DindBlock)) vol.iBlkSz with
    | none => none
    | some (none, bf) => some (false, { r with bf })
    | some (some data, bf) => loop (dindPass vol (indexTable data)) (vol.perBlock + 1) (0, { r with bf })

def andThen (before : Option (Bool × Reading)) (next : Reading → Option (Bool × Reading)) :
    Option (Bool × Reading) :=
  match before with
  | none => none
  | some (false, r) => some (false, r)
  | some (true, r) => next r

/-- `ext2_read_data_blk`: the number of bytes read, nothing where it returns -1. -/
def ext2ReadDataBlk (vol : Volume) (bf : BlockFile) (len0 pos0 : Nat) (inode : Inode) :
    Option (Option Nat × List UInt8 × BlockFile) :=
  let r : Reading := ⟨bf, [], len0, pos0⟩
  let direct := ext2ReadDataBlkByIndex vol (r.blk vol) (ext2NdirBlocks - 1) inode.iBlock r
  match andThen (andThen direct (readIndirect vol inode)) (readDoubleIndirect vol inode) with
  | none => none
  | some (ok, r) => some (if ok then some (len0 - r.len) else none, r.buf, r.bf)

end Embryo.Fs
