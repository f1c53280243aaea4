import Embryo.Machine.Loop
import Embryo.Machine.Splice

namespace Embryo.Block

open Embryo.Machine

def blkfileMaxIoBytes : Nat := 32 * 1024

/-- A `block_device` and what its driver does. The block size is a power of two that divides
    `BLKFILE_MAX_IO_BYTES`; a read without a result and a write with `false` are errors. -/
structure BlockDevice where
  blkSzLog2 : Nat
  small : blkSzLog2 ≤ 15
  lba : Nat
  boRead : Memory → Nat → Nat → Option (List UInt8)
  boWrite : Memory → Nat → Nat → List UInt8 → Bool × Memory

namespace BlockDevice

def blkSz (dev : BlockDevice) : Nat := 2^dev.blkSzLog2

structure Working (dev : BlockDevice) : Prop where
  read : ∀ disk blkno cnt, blkno + cnt ≤ dev.lba →
    dev.boRead disk blkno cnt = some (bytes disk (blkno * dev.blkSz) (cnt * dev.blkSz))
  write : ∀ disk blkno cnt data, blkno + cnt ≤ dev.lba → data.length = cnt * dev.blkSz →
    dev.boWrite disk blkno cnt data = (true, write disk (blkno * dev.blkSz) data)

end BlockDevice

inductive AccMode where
  | rdonly
  | wronly
  | rdwr
deriving DecidableEq, Repr

structure BlockFile where
  disk : Memory
  oflags : AccMode
  bfOffs : Int
  bfEnd : Int
  bfBase : Int

def loff (x : Int) : Int := (BitVec.ofInt 64 x).toInt

def blkfileOpen (dev : BlockDevice) (disk : Memory) (flags : AccMode) : BlockFile where
  disk := disk
  oflags := flags
  bfOffs := 0
  bfEnd := loff (dev.lba * dev.blkSz)
  bfBase := 0

/-- The variables of `blkfile_xfer`; `buf` is what has been copied to the caller's buffer. -/
structure Xfer where
  offs : Nat
  resid : Nat
  disk : Memory
  llbuf : Bool
  buf : List UInt8

def Xfer.advance (x : Xfer) (n : Nat) (disk : Memory) (llbuf : Bool) (got : List UInt8) : Xfer where
  offs := x.offs + n
  resid := x.resid - n
  disk := disk
  llbuf := llbuf
  buf := x.buf ++ got

def Xfer.next (x : Xfer) (data : List UInt8) (n : Nat) : List UInt8 :=
  (data.drop (data.length - x.resid)).take n

/-- A piece of one block, by way of `llbuf`. `alloc` says whether `kmem_malloc` has a buffer. -/
def xferPart (dev : BlockDevice) (alloc : Bool) (data : Option (List UInt8)) (x : Xfer) :
    Pass Xfer (Bool × Xfer) :=
  let suboffs := x.offs % dev.blkSz
  let blkno := x.offs / dev.blkSz
  let n := min (dev.blkSz - suboffs) x.resid
  if ¬ x.llbuf ∧ ¬ alloc then .leave (false, x)
  else
    match dev.boRead x.disk blkno 1 with
    | none => .leave (false, x)
    | some llbuf =>
      match data with
      | none => .again (x.advance n x.disk true ((llbuf.drop suboffs).take n))
      | some data =>
        match dev.boWrite x.disk blkno 1 (splice llbuf suboffs (x.next data n)) with
        | (false, disk) => .leave (false, { x with disk })
        | (true, disk) => .again (x.advance n disk true [])

def xferWhole (dev : BlockDevice) (data : Option (List UInt8)) (x : Xfer) : Pass Xfer (Bool × Xfer) :=
  let n := min (x.resid / dev.blkSz * dev.blkSz) blkfileMaxIoBytes
  let blkno := x.offs / dev.blkSz
  let blkcnt := n / dev.blkSz
  match data with
  | none =>
    match dev.boRead x.disk blkno blkcnt with
    | none => .leave (false, x)
    | some got => .again (x.advance n x.disk x.llbuf got)
  | some data =>
    match dev.boWrite x.disk blkno blkcnt (x.next data n) with
    | (false, disk) => .leave (false, { x with disk })
    | (true, disk) => .again (x.advance n disk x.llbuf [])

def xferPass (dev : BlockDevice) (alloc : Bool) (data : Option (List UInt8)) (x : Xfer) :
    Option (Pass Xfer (Bool × Xfer)) :=
  if x.resid = 0 then some (.leave (true, x))
  else if x.offs % dev.blkSz ≠ 0 ∨ x.resid < dev.blkSz then some (xferPart dev alloc data x)
  else some (xferWhole dev data x)

/-- `blkfile_xfer`; the count it returns is nothing where it returns -1. There is no result if
    the loop has not ended after `nb` passes. -/
def blkfileXfer (dev : BlockDevice) (alloc : Bool) (bf : BlockFile) (nb : Nat) (data : Option (List UInt8)) :
    Option (Option Nat × List UInt8 × BlockFile) :=
  match loop (xferPass dev alloc data) (nb + 1) ⟨bf.bfOffs.toNat, nb, bf.disk, false, []⟩ with
  | none => none
  | some (ok, x) =>
    some (if ok then some (nb - x.resid) else none, x.buf, { bf with bfOffs := x.offs, disk := x.disk })

def BlockFile.clipped (bf : BlockFile) (len : Nat) : Nat :=
  if (len : Int) > bf.bfEnd - bf.bfOffs then (bf.bfEnd - bf.bfOffs).toNat else len

def blkfileRead (dev : BlockDevice) (alloc : Bool) (bf : BlockFile) (len : Nat) :
    Option (Option Nat × List UInt8 × BlockFile) :=
  if bf.oflags = .wronly then some (none, [], bf)
  else if bf.bfOffs < 0 ∨ bf.bfOffs > bf.bfEnd then some (some 0, [], bf)
  else blkfileXfer dev alloc bf (bf.clipped len) none

def blkfileWrite (dev : BlockDevice) (alloc : Bool) (bf : BlockFile) (data : List UInt8) :
    Option (Option Nat × List UInt8 × BlockFile) :=
  if bf.oflags = .rdonly then some (none, [], bf)
  else if bf.bfOffs < 0 ∨ bf.bfOffs > bf.bfEnd then some (some 0, [], bf)
  else blkfileXfer dev alloc bf (bf.clipped data.length) (some (data.take (bf.clipped data.length)))

inductive Whence where
  | set
  | cur
  | stop
deriving DecidableEq, Repr

def BlockFile.sought (bf : BlockFile) (offs : Int) (whence : Whence) : Option Int :=
  match whence with
  | .cur => some (loff (bf.bfOffs + offs))
  | .set => some offs
  | .stop => none

def blkfileLseek (bf : BlockFile) (offs : Int) (whence : Whence) : Option Int × BlockFile :=
  match bf.sought offs whence with
  | none => (none, bf)
  | some noff =>
    if noff < bf.bfBase ∨ noff > bf.bfEnd then (none, bf)
    else (some (noff - bf.bfBase), { bf with bfOffs := noff })

end Embryo.Block
