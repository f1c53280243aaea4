import Embryo.Fs.BlockMap

namespace Embryo.Fs

open Embryo.Machine Embryo.Block

def named (blk : Nat) : Option Nat := if blk = 0 then none else some blk

/-- The disk block of a file block, where there is one. A missing table has none. -/
def sparseBlock (vol : Volume) (disk : Memory) (inode : Inode) (n : Nat) : Option Nat :=
  if n < ext2NdirBlocks then named (inode.iBlock n)
  else if n < ext2NdirBlocks + vol.perBlock then
    (named (inode.iBlock ext2IndBlock)).bind fun table => named (wordAt vol disk table (n - ext2NdirBlocks))
  else
    let m := n - ext2NdirBlocks - vol.perBlock
    (named (inode.iBlock ext2DindBlock)).bind fun tables =>
      (named (wordAt vol disk tables (m / vol.perBlock))).bind fun table =>
        named (wordAt vol disk table (m % vol.perBlock))

def sparseByte (vol : Volume) (disk : Memory) (inode : Inode) : Memory := fun p =>
  match sparseBlock vol disk inode (p / vol.iBlkSz) with
  | none => 0
  | some blk => disk (vol.blockOff blk + p % vol.iBlkSz)

/-- The tables and blocks on the way to the `len` bytes from `pos` on can be read, also in the place
    of those that are missing, and are numbered below the largest number, as the number of blocks
    has 32 bits. -/
structure Covered (vol : Volume) (size : Nat) (disk : Memory) (inode : Inode) (pos len : Nat) : Prop where
  range : len ≠ 0 → pos + len ≤ vol.reach * vol.iBlkSz
  blocks : ∀ n, Wanted vol pos (pos + len) n →
    fileBlock vol disk inode n < 2^32 - 1 ∧ vol.Holds size (fileBlock vol disk inode n)
  ind : len ≠ 0 → ext2NdirBlocks * vol.iBlkSz < pos + len → vol.Holds size (inode.iBlock ext2IndBlock)
  dind : len ≠ 0 → (ext2NdirBlocks + vol.perBlock) * vol.iBlkSz < pos + len →
    vol.Holds size (inode.iBlock ext2DindBlock)
  tables : len ≠ 0 → ∀ i < vol.perBlock,
    (ext2NdirBlocks + vol.perBlock + i * vol.perBlock) * vol.iBlkSz < pos + len →
    vol.Holds size (wordAt vol disk (inode.iBlock ext2DindBlock) i)

variable {vol : Volume} {disk : Memory} {size pos len : Nat} {inode : Inode}

theorem Covered.backed (covered : Covered vol size disk inode pos len) :
    Backed vol size disk inode pos len where
  range := covered.range
  blocks := fun n wanted => (covered.blocks n wanted).2
  joined := fun n wanted _ _ => Nat.ne_of_lt (covered.blocks n wanted).1
  ind := covered.ind
  dind := covered.dind
  tables := covered.tables

theorem named_some {blk b : Nat} (some : named blk = some b) : blk = b := by
  unfold named at some
  split at some
  · cases some
  · exact Option.some.inj some

theorem sparseBlock_some {n b : Nat} (held : sparseBlock vol disk inode n = some b) :
    fileBlock vol disk inode n = b := by
  unfold sparseBlock at held
  unfold fileBlock
  split at held
  · next direct =>
    rw [if_pos direct]
    exact named_some held
  · next direct =>
    rw [if_neg direct]
    split at held
    · next single =>
      rw [if_pos single]
      obtain ⟨table, first, second⟩ := Option.bind_eq_some_iff.mp held
      rw [named_some first]
      exact named_some second
    · next single =>
      rw [if_neg single]
      obtain ⟨tables, first, rest⟩ := Option.bind_eq_some_iff.mp held
      obtain ⟨table, second, third⟩ := Option.bind_eq_some_iff.mp rest
      simp only
      rw [named_some first, named_some second]
      exact named_some third

theorem sparseByte_held {p b : Nat} (held : sparseBlock vol disk inode (p / vol.iBlkSz) = some b) :
    sparseByte vol disk inode p = fileByte vol disk inode p := by
  rw [sparseByte, held, fileByte, sparseBlock_some held]

theorem sparseByte_hole {p : Nat} (hole : sparseBlock vol disk inode (p / vol.iBlkSz) = none) :
    sparseByte vol disk inode p = 0 := by
  rw [sparseByte, hole]

theorem bytes_eq_iff (mem mem' : Memory) (a n : Nat) :
    bytes mem a n = bytes mem' a n ↔ ∀ p, a ≤ p → p < a + n → mem p = mem' p := by
  constructor
  · intro same p low high
    have inside : p - a < n := by omega
    have byte := bytes_getD mem a inside
    rw [same, bytes_getD mem' a inside] at byte
    rw [show p = a + (p - a) by omega]
    exact byte.symm
  · intro same
    apply bytes_shift
    intro k less
    exact same (a + k) (by omega) (by omega)

/-- A file with holes reads as it should if and only if what is read in their place happens to be zero. -/
theorem holes_zero_iff (sound : vol.Sound size) (covered : Covered vol size disk inode pos len)
    (narrow : Narrow vol pos len) {bf : BlockFile} (opened : Opened disk size bf) :
    (∃ bf', ext2ReadDataBlk vol bf len pos inode = some (some len,
      bytes (sparseByte vol disk inode) pos len, bf')) ↔
      ∀ p, pos ≤ p → p < pos + len → sparseBlock vol disk inode (p / vol.iBlkSz) = none →
        disk (vol.blockOff (fileBlock vol disk inode (p / vol.iBlkSz)) + p % vol.iBlkSz) = 0 := by
  obtain ⟨after, call, _⟩ := read_is_bytewise sound covered.backed narrow opened
  constructor
  · rintro ⟨bf', right⟩ p low high hole
    rw [call] at right
    simp only [Option.some.injEq, Prod.mk.injEq, true_and] at right
    have same := (bytes_eq_iff _ _ pos len).mp right.1 p low high
    rw [sparseByte_hole hole] at same
    exact same
  · intro zeros
    refine ⟨after, ?_⟩
    rw [call]
    have same : bytes (fileByte vol disk inode) pos len = bytes (sparseByte vol disk inode) pos len := by
      apply (bytes_eq_iff _ _ pos len).mpr
      intro p low high
      cases held : sparseBlock vol disk inode (p / vol.iBlkSz) with
      | none =>
        rw [sparseByte_hole held]
        exact zeros p low high held
      | some b => exact (sparseByte_held held).symm
    rw [same]

/-- A file of two blocks with a hole in front: what is read of a disk whose blocks hold their
    numbers plus `first`. -/
def numbered (first : Nat) : Memory := fun a => UInt8.ofNat (a / 1024 + first)

def holed : Inode := inodeOf 2048 0 3 7 (by decide) (by decide)

theorem holed_covered (first : Nat) :
    Covered (flatVolume 20 0 (by decide)) 10240 (numbered first) holed 1023 2 := by
  refine ⟨by
    decide, ?_, fun _ before => absurd before (by decide), fun _ before => absurd before (by decide), ?_⟩
  · intro n wanted
    have few : n = 0 ∨ n = 1 := by
      have before : n * 1024 < 1025 := wanted.2
      omega
    rcases few with rfl | rfl
    · exact ⟨show 0 < 2^32 - 1 by decide, show 0 * 512 + 0 * 1024 + 1024 ≤ 10240 by decide⟩
    · exact ⟨show 3 < 2^32 - 1 by decide, show 0 * 512 + 3 * 1024 + 1024 ≤ 10240 by decide⟩
  · intro _ i _ before
    have before : (12 + 256 + i * 256) * 1024 < 1025 := before
    omega

theorem holed_zeros : ∃ bf', ext2ReadDataBlk (flatVolume 20 0 (by decide))
    (flatFile (numbered 0) 10240) 2 1023 holed =
    some (some 2, bytes (sparseByte (flatVolume 20 0 (by decide)) (numbered 0) holed) 1023 2, bf') := by
  apply (@holes_zero_iff (flatVolume 20 0 (by decide)) (numbered 0) 10240 1023 2 holed
    (flatVolume_sound 20 0 (by decide))
    (holed_covered 0) (.inl (by decide)) _ (flatFile_opened (numbered 0) 10240)).mpr
  intro p low high hole
  have which : p = 1023 ∨ p = 1024 := by omega
  rcases which with rfl | rfl
  · rfl
  · cases hole

set_option maxRecDepth 4000 in
/-- Block 0 holds ones, and they are read in the place of the hole. -/
theorem hole_filled :
    (flatVolume 20 0 (by decide)).Sound 10240 ∧ Opened (numbered 1) 10240 (flatFile (numbered 1) 10240) ∧
    Covered (flatVolume 20 0 (by decide)) 10240 (numbered 1) holed 1023 2 ∧
    (∃ bf', ext2ReadDataBlk (flatVolume 20 0 (by decide)) (flatFile (numbered 1) 10240) 2 1023 holed =
      some (some 2, [1, 4], bf')) ∧
    bytes (sparseByte (flatVolume 20 0 (by decide)) (numbered 1) holed) 1023 2 = [0, 4] :=
  ⟨flatVolume_sound 20 0 (by decide), flatFile_opened (numbered 1) 10240, holed_covered 1,
    ⟨_, rfl⟩, by decide⟩

end Embryo.Fs
