import Embryo.Fs.BlockMap

namespace Embryo.Fs

open Embryo.Machine Embryo.Block

def sIsdir (mode : Nat) : Bool := mode / 4096 % 16 = 4

structure Ext2File where
  vol : Volume
  bf : BlockFile
  inode : Inode
  oflags : AccMode
  foffs : Int

/-- `ext2_read`, with the 32-bit word it returns. The variable `res` is unsigned, so the test for
    a result below zero is never true. -/
def ext2Read (ef : Ext2File) (len : Nat) : Option (Nat × List UInt8 × Ext2File) :=
  let offs := (ef.foffs % 2^32).toNat
  if ef.oflags = .wronly then some (2^32 - 1, [], ef)
  else if sIsdir ef.inode.iMode then some (2^32 - 1, [], ef)
  else
    let len := if wrap (len + offs) > ef.inode.iSize then wsub ef.inode.iSize offs else len
    match ext2ReadDataBlk ef.vol ef.bf len offs ef.inode with
    | none => none
    | some (count, data, bf) =>
      let res := count.getD (2^32 - 1)
      some (res, data, { ef with bf, foffs := loff (ef.foffs + res) })

/-- `ext2_lseek` and `ext2_llseek`, which differ in the type of `off` only; what they return is an
    `off_t`. -/
def ext2Lseek (ef : Ext2File) (off : Int) (whence : Whence) : Option Int × Ext2File :=
  let noff := match whence with
    | .cur => some (loff (ef.foffs + off))
    | .set => some off
    | .stop => none
  match noff with
  | none => (none, ef)
  | some noff => (some (BitVec.ofInt 32 noff).toInt, { ef with foffs := noff })

inductive FileOp where
  | lseek (off : BitVec 32) (whence : Whence)
  | llseek (off : BitVec 64) (whence : Whence)
  | read (len : BitVec 32)

structure FileAnswer where
  value : Option Int
  data : List UInt8
deriving DecidableEq

namespace Ext2File

def step (ef : Ext2File) : FileOp → Option (FileAnswer × Ext2File)
  | .lseek off whence =>
    let (noff, ef) := ext2Lseek ef off.toInt whence
    some (⟨noff, []⟩, ef)
  | .llseek off whence =>
    let (noff, ef) := ext2Lseek ef off.toInt whence
    some (⟨noff, []⟩, ef)
  | .read len => (ext2Read ef len.toNat).map (fun r => (⟨some r.1, r.2.1⟩, r.2.2))

def run (ef : Ext2File) : List FileOp → Option (List FileAnswer × Ext2File)
  | [] => some ([], ef)
  | op :: ops =>
    match ef.step op with
    | none => none
    | some (answer, ef) =>
      match ef.run ops with
      | none => none
      | some (answers, ef) => some (answer :: answers, ef)

end Ext2File

structure ArrayFile where
  content : Memory
  size : Nat
  pos : Int

namespace ArrayFile

def rest (file : ArrayFile) (len : Nat) : Nat := min len (file.size - file.pos).toNat

def seek (file : ArrayFile) (off : Int) (whence : Whence) : FileAnswer × ArrayFile :=
  match whence with
  | .cur =>
    (⟨some (BitVec.ofInt 32 (loff (file.pos + off))).toInt, []⟩, { file with pos := loff (file.pos + off) })
  | .set => (⟨some (BitVec.ofInt 32 off).toInt, []⟩, { file with pos := off })
  | .stop => (⟨none, []⟩, file)

/-- A read returns the bytes from the position on, as many as there are, and moves behind them. -/
def step (file : ArrayFile) : FileOp → FileAnswer × ArrayFile
  | .lseek off whence => file.seek off.toInt whence
  | .llseek off whence => file.seek off.toInt whence
  | .read len =>
    let n := file.rest len.toNat
    (⟨some n, bytes file.content file.pos.toNat n⟩, { file with pos := file.pos + n })

def run (file : ArrayFile) : List FileOp → List FileAnswer × ArrayFile
  | [] => ([], file)
  | op :: ops =>
    let (answer, file) := file.step op
    let (answers, file) := file.run ops
    (answer :: answers, file)

end ArrayFile

def Ext2File.array (ef : Ext2File) : ArrayFile :=
  ⟨fileByte ef.vol ef.bf.disk ef.inode, ef.inode.iSize, ef.foffs⟩

/-- When a read does what it should: the position is not behind the end, the sum of position and
    length does not wrap to one inside the file, and the blocks to be read can be read. -/
structure Clipped (vol : Volume) (deviceSize : Nat) (disk : Memory) (inode : Inode)
    (file : ArrayFile) (len : Nat) : Prop where
  started : 0 ≤ file.pos
  before : file.pos ≤ file.size
  unwrapped : file.pos.toNat + len < 2^32 ∨ wrap (len + file.pos.toNat) > file.size
  mapped : Mapped vol deviceSize disk inode file.pos.toNat (file.rest len)
  narrow : Narrow vol file.pos.toNat (file.rest len)

def AllClipped (vol : Volume) (deviceSize : Nat) (disk : Memory) (inode : Inode) :
    ArrayFile → List FileOp → Prop
  | _, [] => True
  | file, op :: ops =>
    (∀ len, op = .read len → Clipped vol deviceSize disk inode file len.toNat) ∧
      AllClipped vol deviceSize disk inode (file.step op).2 ops

structure Readable (vol : Volume) (size : Nat) (disk : Memory) (inode : Inode) (ef : Ext2File) : Prop where
  regular : sIsdir inode.iMode = false
  oflags : ef.oflags ≠ .wronly
  opened : Opened disk size ef.bf
  vol : ef.vol = vol
  inode : ef.inode = inode

variable {vol : Volume} {deviceSize : Nat} {disk : Memory} {inode : Inode} {ef : Ext2File}

theorem Readable.seek (readable : Readable vol deviceSize disk inode ef) (off : Int) (whence : Whence) :
    ∃ ef', ext2Lseek ef off whence = ((ef.array.seek off whence).1.value, ef') ∧
      Readable vol deviceSize disk inode ef' ∧ ef'.array = (ef.array.seek off whence).2 ∧
      (ef.array.seek off whence).1.data = [] := by
  cases whence with
  | cur => exact ⟨_, rfl, { readable with }, rfl, rfl⟩
  | set => exact ⟨_, rfl, { readable with }, rfl, rfl⟩
  | stop => exact ⟨_, rfl, readable, rfl, rfl⟩

theorem Readable.read (readable : Readable vol deviceSize disk inode ef)
    (sound : vol.Sound deviceSize) {len : BitVec 32}
    (clipped : Clipped vol deviceSize disk inode ef.array len.toNat) :
    ∃ ef', ef.step (.read len) = some ((ef.array.step (.read len)).1, ef') ∧
      Readable vol deviceSize disk inode ef' ∧ ef'.array = (ef.array.step (.read len)).2 := by
  obtain ⟨started, before, unwrapped, mapped, narrow⟩ := clipped
  have sized : ef.inode.iSize < 2^32 := ef.inode.sized
  have pos : ef.array.pos = ef.foffs := rfl
  have size : ef.array.size = ef.inode.iSize := rfl
  rw [pos] at started before unwrapped mapped narrow
  rw [size] at before unwrapped
  have bound : len.toNat < 2^32 := len.isLt
  have offs : (ef.foffs % 2^32).toNat = ef.foffs.toNat := by omega
  -- the length is cut to what is left of the file
  have amount : (if wrap (len.toNat + ef.foffs.toNat) > ef.inode.iSize then wsub ef.inode.iSize ef.foffs.toNat
      else len.toNat) = ef.array.rest len.toNat := by
    have left : wsub ef.inode.iSize ef.foffs.toNat = ef.inode.iSize - ef.foffs.toNat :=
      wsub_of_le (by omega) sized
    rw [left, ArrayFile.rest, pos, size]
    rcases unwrapped with plain | wrapped
    · rw [wrap_of_lt (by omega)]
      split <;> omega
    · rw [if_pos wrapped]
      simp only [wrap] at wrapped
      omega
  obtain ⟨bf, call, opened⟩ := ext2_read_is_bytewise sound mapped narrow readable.opened
  have within : ef.foffs + ef.array.rest len.toNat ≤ ef.inode.iSize := by
    rw [ArrayFile.rest, pos, size]
    omega
  refine ⟨{ ef with bf, foffs := loff (ef.foffs + ef.array.rest len.toNat) }, ?_,
    { readable with opened }, ?_⟩
  · simp only [Ext2File.step, ext2Read]
    rw [if_neg readable.oflags, if_neg (by rw [readable.inode, readable.regular]; decide), offs,
      amount, readable.vol,
      readable.inode, call]
    simp only [Option.getD_some, Option.map_some, ArrayFile.step, Ext2File.array, readable.vol,
      readable.inode,
      readable.opened.disk]
  · have plain : loff (ef.foffs + ef.array.rest len.toNat) = ef.foffs + ef.array.rest len.toNat :=
      loff_of_lt (by omega) (by omega)
    simp only [Ext2File.array, ArrayFile.step, readable.opened.disk, opened.disk]
    congr 1

/-- A file read and moved about in as an array, as long as every read is clipped. -/
theorem ext2_file_is_array (sound : vol.Sound deviceSize) (ops : List FileOp)
    (readable : Readable vol deviceSize disk inode ef)
    (clipped : AllClipped vol deviceSize disk inode ef.array ops) :
    ∃ ef', ef.run ops = some ((ef.array.run ops).1, ef') ∧ ef'.array = (ef.array.run ops).2 := by
  induction ops generalizing ef with
  | nil => exact ⟨ef, rfl, rfl⟩
  | cons op ops ih =>
    have stepped : ∃ next, ef.step op = some ((ef.array.step op).1, next) ∧
        Readable vol deviceSize disk inode next ∧ next.array = (ef.array.step op).2 := by
      cases op with
      | lseek off whence =>
        obtain ⟨next, call, kept, same, empty⟩ := readable.seek off.toInt whence
        refine ⟨next, ?_, kept, same⟩
        simp only [Ext2File.step, call]
        rw [← empty]
        rfl
      | llseek off whence =>
        obtain ⟨next, call, kept, same, empty⟩ := readable.seek off.toInt whence
        refine ⟨next, ?_, kept, same⟩
        simp only [Ext2File.step, call]
        rw [← empty]
        rfl
      | read len => exact readable.read sound (clipped.1 len rfl)
    obtain ⟨next, call, kept, same⟩ := stepped
    obtain ⟨last, ran, final⟩ := ih kept (same ▸ clipped.2)
    refine ⟨last, ?_, ?_⟩
    · rw [Ext2File.run, call]
      simp only
      rw [ran, same]
      rfl
    · rw [final, same]
      rfl

theorem little_words : 5 < 2^32 ∧ 3 < 2^32 ∧ 7 < 2^32 := by decide

def littleFile : Ext2File where
  vol := flatVolume 20 0 (by decide)
  bf := flatFile (fun a => UInt8.ofNat (a % 256)) 10240
  inode := inodeOf 5 5 3 7 (by decide) little_words
  oflags := .rdonly
  foffs := 0

theorem littleFile_mapped {pos len : Nat} (short : pos + len ≤ 5) :
    Mapped littleFile.vol 10240 littleFile.bf.disk littleFile.inode pos len := by
  refine ⟨?_, ?_, ?_, ?_, ?_⟩
  · intro _
    show pos + len ≤ (12 + 256 + 256 * 256) * 1024
    omega
  · intro n wanted
    have first : n * 1024 < pos + len := wanted.2
    rw [show n = 0 by omega]
    exact ⟨by decide, show 0 * 512 + 5 * 1024 + 1024 ≤ 10240 by decide⟩
  · intro _ beyond
    have beyond : 12 * 1024 < pos + len := beyond
    omega
  · intro _ beyond
    have beyond : (12 + 256) * 1024 < pos + len := beyond
    omega
  · intro _ i _ beyond
    have beyond : (12 + 256 + i * 256) * 1024 < pos + len := beyond
    omega

theorem littleFile_read : ∃ ef, littleFile.run [.read 3, .lseek 1 .set, .read 100, .read 1] =
    some ([⟨some 3, [0, 1, 2]⟩, ⟨some 1, []⟩, ⟨some 4, [1, 2, 3, 4]⟩, ⟨some 0, []⟩], ef) ∧ ef.foffs = 5 := by
  have readable : Readable littleFile.vol 10240 littleFile.bf.disk littleFile.inode littleFile :=
    ⟨by decide, by decide, flatFile_opened _ _, rfl, rfl⟩
  have clipped : ∀ (pos len : Nat), pos ≤ 5 → len ≤ 100 →
      Clipped littleFile.vol 10240 littleFile.bf.disk littleFile.inode
          { littleFile.array with pos := pos } len := by
    intro pos len inside short
    have size : littleFile.array.size = 5 := rfl
    refine ⟨Int.natCast_nonneg _, ?_, .inl ?_, littleFile_mapped ?_, .inl (by decide)⟩
    · show (pos : Int) ≤ (5 : Nat)
      omega
    · show (pos : Int).toNat + len < 2^32
      omega
    · simp only [ArrayFile.rest, size]
      omega
  have all : AllClipped littleFile.vol 10240 littleFile.bf.disk littleFile.inode littleFile.array
      [.read 3, .lseek 1 .set, .read 100, .read 1] := by
    refine ⟨?_, nofun, ?_, ?_, trivial⟩
    · rintro len ⟨⟩
      exact clipped 0 3 (by decide) (by decide)
    · rintro len ⟨⟩
      exact clipped 1 100 (by decide) (by decide)
    · rintro len ⟨⟩
      exact clipped 5 1 (by decide) (by decide)
  obtain ⟨ef, ran, final⟩ := ext2_file_is_array (flatVolume_sound 20 0 (by decide)) _ readable all
  exact ⟨ef, ran, congrArg ArrayFile.pos final⟩

def deadFile (foffs : Int) : Ext2File :=
  { littleFile with
    vol := { littleFile.vol with dev := { flatDisk 20 with boRead := fun _ _ _ => none } }
    foffs := foffs }

/-- A device error is returned as -1, but moves the position by 2^32 - 1; and behind the end of the
    file the device is read all the same. -/
theorem failed_read_moves :
    (∃ ef, ext2Read (deadFile 0) 1 = some (2^32 - 1, [], ef) ∧ ef.foffs = 4294967295) ∧
    (∃ ef, ext2Read (deadFile 6) 1 = some (2^32 - 1, [], ef) ∧ ef.foffs = 4294967301) :=
  ⟨⟨_, rfl, rfl⟩, ⟨_, rfl, rfl⟩⟩

end Embryo.Fs
