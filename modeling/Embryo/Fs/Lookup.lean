import Embryo.Fs.BlockMap

namespace Embryo.Fs

open Embryo.Machine Embryo.Block

def ext2NameLen : Nat := 255
def ext2RootIno : Nat := 2
def ext2FtRegFile : UInt8 := 1
def ext2FtDir : UInt8 := 2
def sizeofGroupDesc : Nat := 32
def sizeofInode : Nat := 128
def slash : UInt8 := 47

structure FileSystem where
  vol : Volume
  iInodesPerGroup : Nat
  iInodesSz : Nat
  grouped : 0 < iInodesPerGroup

namespace FileSystem

def grpdesPerBlock (fs : FileSystem) : Nat := fs.vol.iBlkSz / sizeofGroupDesc

def groupOff (fs : FileSystem) (ino : Nat) : Nat :=
  let grpIdx := wsub ino 1 / fs.iInodesPerGroup
  let grpBlk := grpIdx / fs.grpdesPerBlock + (1024 / fs.vol.iBlkSz + 1)
  fs.vol.startSect * sectorSz + grpBlk * fs.vol.iBlkSz + grpIdx % fs.grpdesPerBlock * sizeofGroupDesc

def inodeOff (fs : FileSystem) (ino : Nat) (grpdesc : List UInt8) : Nat :=
  let inodeOffs := wrap (wsub ino 1 % fs.iInodesPerGroup * fs.iInodesSz)
  let bgInodeTable := load32 (fun a => grpdesc.getD a 0) 8
  let inodeBlk := wrap (bgInodeTable + inodeOffs / fs.vol.iBlkSz)
  fs.vol.startSect * sectorSz + inodeBlk * fs.vol.iBlkSz + inodeOffs % fs.vol.iBlkSz

end FileSystem

def decodeInode (data : List UInt8) : Inode where
  iMode := (data.getD 0 0).toNat + 256 * (data.getD 1 0).toNat
  iSize := load32 (fun a => data.getD a 0) 4
  iBlock := fun i => load32 (fun a => data.getD a 0) (40 + 4 * i)
  sized := load32_lt _ _
  word := fun _ => load32_lt _ _

/-- `ext2_get_inode_by_number`: the bytes of the inode, or nothing where it returns -1. -/
def ext2GetInodeByNumber (fs : FileSystem) (bf : BlockFile) (ino : Nat) :
    Option (Option (List UInt8) × BlockFile) :=
  match readAt fs.vol bf (fs.groupOff ino) sizeofGroupDesc with
  | none => none
  | some (none, bf) => some (none, bf)
  | some (some grpdesc, bf) =>
    if ¬ fs.vol.malloc 2 then some (none, bf)
    else
      readAt fs.vol bf (fs.inodeOff ino grpdesc) sizeofInode

structure DirEntry where
  inode : Nat
  recLen : Nat
  nameLen : UInt8
  fileType : UInt8
  name : List UInt8
deriving DecidableEq, Repr

def entryAt (data : List UInt8) (cp : Nat) : DirEntry where
  inode := load32 (fun a => data.getD a 0) cp
  recLen := (data.getD (cp + 4) 0).toNat + 256 * (data.getD (cp + 5) 0).toNat
  nameLen := data.getD (cp + 6) 0
  fileType := data.getD (cp + 7) 0
  name := (data.drop (cp + 8)).take (data.getD (cp + 6) 0).toNat

def DirEntry.src (e : DirEntry) : List UInt8 := e.name.takeWhile (· ≠ 0)

/-- The loop over the entries of a directory; it ends at the entry found, at the end of the directory
    or at an entry it does not expect. -/
def scanPass (data file : List UInt8) (cp : Nat) : Option (Pass Nat (Option (Nat × DirEntry))) :=
  if cp < data.length then
    let e := entryAt data cp
    if e.recLen = 0 ∨ e.nameLen = 0 then some (.leave none)
    else if e.src = file then some (.leave (some (cp, e)))
    else some (.again (cp + e.recLen))
  else some (.leave none)

/-- Where `malloc` puts the buffer of the directory with the file, and, with the buffer freed, the
    inode of the file. -/
structure Buffers where
  buf : Nat
  inode : Nat

/-- The memory when the inode of the file has been read: its block may be cut from the freed buffer,
    with the size in units of 8 bytes in front. -/
def Buffers.reused (b : Buffers) (data inode : List UInt8) : Memory := fun a =>
  if b.inode ≤ a ∧ a < b.inode + sizeofInode then inode.getD (a - b.inode) 0
  else if b.inode ≤ a + 4 ∧ a < b.inode then if a + 4 = b.inode then 17 else 0
  else data.getD (a - b.buf) 0

/-- `ef->inode_no`, which is read from the entry at offset `cp` of the freed buffer. -/
def Buffers.inodeNo (b : Buffers) (data inode : List UInt8) (cp : Nat) : Nat :=
  load32 (b.reused data inode) (b.buf + cp)

/-- Where `ext2_lookup_inode` is: the inode number of a directory and the rest of the path. -/
structure Lookup where
  bf : BlockFile
  ino : Nat
  fnamep : List UInt8

def descend (fs : FileSystem) (b : Buffers) (s : Lookup) (data : List UInt8) (cp : Nat) (e : DirEntry) :
    Option (Pass Lookup (Option (Nat × Inode) × BlockFile)) :=
  if e.fileType = ext2FtRegFile then
    if s.fnamep.head? = some slash then some (.leave (none, s.bf))
    else
      match ext2GetInodeByNumber fs s.bf e.inode with
      | none => none
      | some (none, bf) => some (.leave (none, bf))
      | some (some inode, bf) => some (.leave (some (b.inodeNo data inode cp, decodeInode inode), bf))
  else some (.again { s with ino := e.inode, fnamep := s.fnamep.dropWhile (· = slash) })

def search (fs : FileSystem) (b : Buffers) (s : Lookup) (inode : Inode) (file : List UInt8) :
    Option (Pass Lookup (Option (Nat × Inode) × BlockFile)) :=
  if ¬ fs.vol.malloc 3 then some (.leave (none, s.bf))
  else
    match ext2ReadDataBlk fs.vol s.bf inode.iSize 0 inode with
    | none => none
    | some (count, data, bf) =>
      if count ≠ some inode.iSize then some (.leave (none, bf))
      else
        match loop (scanPass data file) (data.length + 1) 0 with
        | none => none
        | some none => some (.leave (none, bf))
        | some (some (cp, e)) => descend fs b { s with bf } data cp e

def lookupPass (fs : FileSystem) (b : Buffers) (s : Lookup) :
    Option (Pass Lookup (Option (Nat × Inode) × BlockFile)) :=
  match ext2GetInodeByNumber fs s.bf s.ino with
  | none => none
  | some (none, bf) => some (.leave (none, bf))
  | some (some data, bf) =>
    let inode := decodeInode data
    let file := s.fnamep.takeWhile (· ≠ slash)
    if file.length > ext2NameLen then some (.leave (none, bf))
    else if file = [] then some (.leave (some (s.ino, inode), bf))
    else search fs b { s with bf, fnamep := s.fnamep.dropWhile (· ≠ slash) } inode file

/-- `ext2_lookup_inode`: the number and the inode found. There is no result if it has not ended
    after as many directories as the path has characters. -/
def ext2LookupInode (fs : FileSystem) (b : Buffers) (bf : BlockFile) (filepath : List UInt8) :
    Option (Option (Nat × Inode) × BlockFile) :=
  loop (lookupPass fs b) (filepath.length + 1) ⟨bf, ext2RootIno, filepath.dropWhile (· = slash)⟩

end Embryo.Fs
