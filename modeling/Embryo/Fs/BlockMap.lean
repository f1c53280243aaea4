import Embryo.Fs.ReadData

namespace Embryo.Fs

open Embryo.Machine Embryo.Block

theorem load32_lt (mem : Memory) (a : Nat) : load32 mem a < 2^32 := by
  have byte : ∀ x, (mem x).toNat < 256 := fun x => (mem x).toNat_lt
  have := byte a
  have := byte (a + 1)
  have := byte (a + 2)
  have := byte (a + 3)
  simp only [load32]
  omega

theorem indexTable_lt (data : List UInt8) (i : Nat) : indexTable data i < 2^32 := load32_lt _ _

def wordAt (vol : Volume) (disk : Memory) (blk i : Nat) : Nat := load32 disk (vol.blockOff blk + 4 * i)

/-- The disk block that the direct, the single and the double indirect tables give for a file block. -/
def fileBlock (vol : Volume) (disk : Memory) (inode : Inode) (n : Nat) : Nat :=
  if n < ext2NdirBlocks then inode.iBlock n
  else if n < ext2NdirBlocks + vol.perBlock then wordAt vol disk (inode.iBlock ext2IndBlock)
    (n - ext2NdirBlocks)
  else
    let m := n - ext2NdirBlocks - vol.perBlock
    wordAt vol disk (wordAt vol disk (inode.iBlock ext2DindBlock) (m / vol.perBlock)) (m % vol.perBlock)

def fileByte (vol : Volume) (disk : Memory) (inode : Inode) : Memory := fun p =>
  disk (vol.blockOff (fileBlock vol disk inode (p / vol.iBlkSz)) + p % vol.iBlkSz)

def Volume.reach (vol : Volume) : Nat := ext2NdirBlocks + vol.perBlock + vol.perBlock * vol.perBlock

def Volume.Holds (vol : Volume) (size blk : Nat) : Prop := vol.blockOff blk + vol.iBlkSz ≤ size

/-- The `len` bytes from `pos` on are within the reach of the tables, their block numbers are not
    zero, and the blocks and the tables read on the way to them are on the device. -/
structure Mapped (vol : Volume) (size : Nat) (disk : Memory) (inode : Inode) (pos len : Nat) : Prop where
  range : len ≠ 0 → pos + len ≤ vol.reach * vol.iBlkSz
  blocks : ∀ n, Wanted vol pos (pos + len) n →
    fileBlock vol disk inode n ≠ 0 ∧ vol.Holds size (fileBlock vol disk inode n)
  ind : len ≠ 0 → ext2NdirBlocks * vol.iBlkSz < pos + len → vol.Holds size (inode.iBlock ext2IndBlock)
  dind : len ≠ 0 → (ext2NdirBlocks + vol.perBlock) * vol.iBlkSz < pos + len →
    vol.Holds size (inode.iBlock ext2DindBlock)
  tables : len ≠ 0 → ∀ i < vol.perBlock,
    (ext2NdirBlocks + vol.perBlock + i * vol.perBlock) * vol.iBlkSz < pos + len →
    vol.Holds size (wordAt vol disk (inode.iBlock ext2DindBlock) i)

/-- The same with any block numbers, where a zero names block 0 as the reader takes it; but a zero
    does not follow on the largest number. -/
structure Backed (vol : Volume) (size : Nat) (disk : Memory) (inode : Inode) (pos len : Nat) : Prop where
  range : len ≠ 0 → pos + len ≤ vol.reach * vol.iBlkSz
  blocks : ∀ n, Wanted vol pos (pos + len) n → vol.Holds size (fileBlock vol disk inode n)
  joined : ∀ n, Wanted vol pos (pos + len) n → Wanted vol pos (pos + len) (n + 1) →
    fileBlock vol disk inode (n + 1) = 0 → fileBlock vol disk inode n ≠ 2^32 - 1
  ind : len ≠ 0 → ext2NdirBlocks * vol.iBlkSz < pos + len → vol.Holds size (inode.iBlock ext2IndBlock)
  dind : len ≠ 0 → (ext2NdirBlocks + vol.perBlock) * vol.iBlkSz < pos + len →
    vol.Holds size (inode.iBlock ext2DindBlock)
  tables : len ≠ 0 → ∀ i < vol.perBlock,
    (ext2NdirBlocks + vol.perBlock + i * vol.perBlock) * vol.iBlkSz < pos + len →
    vol.Holds size (wordAt vol disk (inode.iBlock ext2DindBlock) i)

def Narrow (vol : Volume) (pos len : Nat) : Prop :=
  vol.iBlkSz ≤ 2^17 ∨ (len + vol.iBlkSz ≤ 2^32 ∧ pos + len ≤ 2^32 * vol.iBlkSz)

variable {vol : Volume} {disk : Memory} {size pos len : Nat} {inode : Inode} {r : Reading}

theorem Volume.perBlock_mul (vol : Volume) : 4 * vol.perBlock = vol.iBlkSz := by
  have divides : 4 ∣ vol.iBlkSz := by
    have : vol.iBlkSz = 4 * 2^(8 + vol.logBlockSize) := by
      rw [Volume.iBlkSz, Volume.iLogBlkSz, show 10 + vol.logBlockSize =
        2 + (8 + vol.logBlockSize) by omega, Nat.pow_add]
    exact ⟨_, this⟩
  exact Nat.mul_div_cancel' divides

theorem Volume.perBlock_pos (vol : Volume) : 0 < vol.perBlock := by
  have := vol.perBlock_mul
  have := vol.iBlkSz_pos
  omega

theorem bytes_getD (mem : Memory) (a : Nat) {n k : Nat} (bound : k < n) :
    (bytes mem a n).getD k 0 = mem (a + k) := by
  have inside : k < (bytes mem a n).length := by rw [bytes_length]; exact bound
  rw [List.getD_eq_getElem _ _ inside]
  exact bytes_get mem a n k inside

theorem indexTable_bytes (vol : Volume) (disk : Memory) (blk : Nat) {i : Nat} (bound : i < vol.perBlock) :
    indexTable (bytes disk (vol.blockOff blk) vol.iBlkSz) i = wordAt vol disk blk i := by
  have whole := vol.perBlock_mul
  simp only [indexTable, wordAt, load32]
  rw [bytes_getD disk _ (by omega), bytes_getD disk _ (by omega), bytes_getD disk _ (by omega),
    bytes_getD disk _ (by omega)]
  simp only [Nat.add_assoc]

theorem fileByte_block (vol : Volume) (disk : Memory) (inode : Inode) (n : Nat) {k : Nat}
    (bound : k < vol.iBlkSz) :
    fileByte vol disk inode (n * vol.iBlkSz + k) = disk (vol.blockOff (fileBlock vol disk inode n) + k) := by
  have index : (n * vol.iBlkSz + k) / vol.iBlkSz = n := by
    rw [Nat.mul_comm, Nat.mul_add_div vol.iBlkSz_pos, Nat.div_eq_of_lt bound, Nat.add_zero]
  have rest : (n * vol.iBlkSz + k) % vol.iBlkSz = k := by
    rw [Nat.mul_comm, Nat.mul_add_mod, Nat.mod_eq_of_lt bound]
  rw [fileByte, index, rest]

theorem Mapped.backed (mapped : Mapped vol size disk inode pos len) : Backed vol size disk inode pos len where
  range := mapped.range
  blocks := fun n wanted => (mapped.blocks n wanted).2
  joined := fun n _ next zero => absurd zero (mapped.blocks (n + 1) next).1
  ind := mapped.ind
  dind := mapped.dind
  tables := mapped.tables

theorem Backed.tabled (backed : Backed vol size disk inode pos len) {base endIdx : Nat} {table : Nat → Nat}
    (word : ∀ i, table i < 2^32) (entries : ∀ i ≤ endIdx, table i = fileBlock vol disk inode (base + i)) :
    Tabled vol size disk (fileByte vol disk inode) pos (pos + len) base table endIdx where
  word := word
  joined := fun i last wanted next zero => by
    rw [entries i (by omega)]
    exact backed.joined _ wanted next (by rw [Nat.add_assoc, ← entries (i + 1) last]; exact zero)
  inside := fun i last wanted => entries i last ▸ backed.blocks _ wanted
  bytes := fun i last _ k bound => by rw [entries i last, fileByte_block vol disk inode _ bound]

theorem direct_entries (vol : Volume) (disk : Memory) (inode : Inode) :
    ∀ i ≤ ext2NdirBlocks - 1, inode.iBlock i = fileBlock vol disk inode (0 + i) := by
  intro i last
  rw [Nat.zero_add, fileBlock, if_pos (by rw [ext2NdirBlocks] at *; omega)]

theorem indirect_entries (vol : Volume) (disk : Memory) (inode : Inode) :
    ∀ i ≤ vol.perBlock - 1,
      indexTable (bytes disk (vol.blockOff (inode.iBlock ext2IndBlock)) vol.iBlkSz) i =
        fileBlock vol disk inode (ext2NdirBlocks + i) := by
  intro i last
  have some := vol.perBlock_pos
  rw [indexTable_bytes vol disk _ (by omega), fileBlock, if_neg (by omega), if_pos (by omega),
    Nat.add_sub_cancel_left]

theorem dind_entries (vol : Volume) (disk : Memory) (inode : Inode) (j : Nat) :
    ∀ i ≤ vol.perBlock - 1,
      indexTable (bytes disk (vol.blockOff (wordAt vol disk (inode.iBlock ext2DindBlock) j)) vol.iBlkSz) i =
        fileBlock vol disk inode (ext2NdirBlocks + (j + 1) * vol.perBlock + i) := by
  intro i last
  have some := vol.perBlock_pos
  have beyond : vol.perBlock ≤ (j + 1) * vol.perBlock := Nat.le_mul_of_pos_left _ (by omega)
  have rest : ext2NdirBlocks + (j + 1) * vol.perBlock + i - ext2NdirBlocks - vol.perBlock =
      vol.perBlock * j + i := by
    rw [Nat.add_mul, Nat.one_mul, Nat.mul_comm]
    omega
  rw [indexTable_bytes vol disk _ (by omega), fileBlock, if_neg (by omega), if_neg (by omega)]
  simp only
  rw [rest, Nat.mul_add_div some, Nat.mul_add_mod, Nat.div_eq_of_lt (by omega),
    Nat.mod_eq_of_lt (by omega), Nat.add_zero]

theorem Narrow.unwrapped (narrow : Narrow vol pos len) {endIdx : Nat}
    (bound : endIdx ≤ 11 ∨ endIdx ≤ vol.perBlock - 1) :
    Unwrapped vol endIdx (pos + len - pos) := by
  rcases narrow with small | ⟨short, _⟩
  · left
    have some := vol.perBlock_pos
    have whole := vol.perBlock_mul
    rcases bound with few | entries
    · have : endIdx * vol.iBlkSz ≤ 11 * 2^17 := Nat.mul_le_mul few small
      omega
    · have : endIdx * vol.iBlkSz ≤ (2^15 - 1) * 2^17 := Nat.mul_le_mul (by omega) small
      omega
  · right
    omega

theorem Narrow.blocks (narrow : Narrow vol pos len) (backed : Backed vol size disk inode pos len)
    (some : len ≠ 0) {n : Nat} (before : n * vol.iBlkSz < pos + len) : n < 2^32 := by
  have unit := vol.iBlkSz_pos
  rcases narrow with small | ⟨_, short⟩
  · have range := backed.range some
    have whole := vol.perBlock_mul
    have square : vol.perBlock * vol.perBlock ≤ 2^15 * 2^15 := Nat.mul_le_mul (by omega) (by omega)
    have less : n < vol.reach := Nat.lt_of_mul_lt_mul_right (before.trans_le range)
    simp only [Volume.reach, ext2NdirBlocks] at less
    omega
  · exact Nat.lt_of_mul_lt_mul_right (before.trans_le short)

def Reached (vol : Volume) (n : Nat) (r : Reading) : Prop := r.len = 0 ∨ n ≤ r.pos / vol.iBlkSz

theorem byIndex_empty (vol : Volume) (startIdx endIdx : Nat) (table : Nat → Nat) (empty : r.len = 0) :
    ext2ReadDataBlkByIndex vol startIdx endIdx table r = some (true, r) := by
  have rest := Nat.mod_lt r.pos vol.iBlkSz_pos
  have left : ∀ off, merged vol table endIdx ⟨r, startIdx, r.len, 0, off⟩ = some (true, r) := by
    intro off
    have stops : loop (mergePass vol table endIdx) (r.len + endIdx + 3) ⟨r, startIdx, r.len, 0, off⟩ =
        some (true, ⟨r, startIdx, r.len, 0, off⟩) := by
      apply loop_leave (by omega)
      unfold mergePass
      dsimp only
      rw [if_neg (by omega)]
    unfold merged
    simp only [stops]
    rw [if_pos empty]
  unfold ext2ReadDataBlkByIndex
  split
  · rfl
  · dsimp only
    rw [if_pos (by omega)]
    exact left _

section

variable (sound : vol.Sound size) (backed : Backed vol size disk inode pos len) (narrow : Narrow vol pos len)

include sound backed narrow

theorem byIndex_stage (base : Nat) {endIdx : Nat} {table : Nat → Nat}
    (reads : Reads disk size (fileByte vol disk inode) pos (pos + len) r)
    (bound : endIdx ≤ 11 ∨ endIdx ≤ vol.perBlock - 1) (word : ∀ i, table i < 2^32)
    (entries : ∀ i ≤ endIdx, table i = fileBlock vol disk inode (base + i))
    (reached : base ≤ r.pos / vol.iBlkSz) :
    ∃ r', ext2ReadDataBlkByIndex vol (r.pos / vol.iBlkSz - base) endIdx table r = some (true, r') ∧
      Reads disk size (fileByte vol disk inode) pos (pos + len) r' ∧ Reached vol (base + endIdx + 1) r' := by
  by_cases skipped : r.pos / vol.iBlkSz - base > endIdx
  · refine ⟨r, ?_, reads, .inr (by omega)⟩
    rw [ext2ReadDataBlkByIndex, if_pos skipped]
  · obtain ⟨r', call, reads', done⟩ := byIndex_reads reads (backed.tabled word entries) sound
      (narrow.unwrapped bound)
      (show r.pos / vol.iBlkSz = base + (r.pos / vol.iBlkSz - base) by omega) (by omega)
    refine ⟨r', call, reads', ?_⟩
    rcases done with empty | full
    · exact .inl empty
    · right
      rw [full, Nat.mul_div_cancel _ vol.iBlkSz_pos]

omit sound in
theorem Reads.blk (reads : Reads disk size (fileByte vol disk inode) pos (pos + len) r) (more : r.len ≠ 0) :
    r.blk vol = r.pos / vol.iBlkSz ∧ r.pos / vol.iBlkSz < 2^32 := by
  have total := reads.total
  have ahead := reads.ahead
  have low := Nat.div_mul_le_self r.pos vol.iBlkSz
  have less := narrow.blocks backed (by omega) (n := r.pos / vol.iBlkSz) (by omega)
  exact ⟨wrap_of_lt less, less⟩

omit sound narrow backed in
theorem Reached.before {n : Nat} (reached : Reached vol n r) (more : r.len ≠ 0)
    (reads : Reads disk size (fileByte vol disk inode) pos (pos + len) r) :
    n ≤ r.pos / vol.iBlkSz ∧ n * vol.iBlkSz < pos + len ∧ len ≠ 0 := by
  have here := reached.resolve_left more
  have total := reads.total
  have ahead := reads.ahead
  have low : n * vol.iBlkSz ≤ r.pos := (Nat.le_div_iff_mul_le vol.iBlkSz_pos).mp here
  omega

theorem readIndirect_reads (reads : Reads disk size (fileByte vol disk inode) pos (pos + len) r)
    (reached : Reached vol ext2NdirBlocks r) :
    ∃ r', readIndirect vol inode r = some (true, r') ∧
      Reads disk size (fileByte vol disk inode) pos (pos + len) r' ∧
        Reached vol (ext2NdirBlocks + vol.perBlock) r' := by
  unfold readIndirect
  by_cases empty : r.len = 0
  · rw [if_pos (.inl empty)]
    exact ⟨r, rfl, reads, .inl empty⟩
  rw [if_neg (by simp [empty, sound.malloc])]
  obtain ⟨here, before, some⟩ := reached.before empty reads
  obtain ⟨bf, read, opened⟩ := readAt_reads sound reads.opened (backed.ind some before)
  simp only [read]
  have blk := Reads.blk backed narrow reads empty
  have startIdx : wsub (r.blk vol) ext2NdirBlocks = r.pos / vol.iBlkSz - ext2NdirBlocks := by
    rw [blk.1]
    exact wsub_of_le here blk.2
  rw [startIdx]
  have reads' : Reads disk size (fileByte vol disk inode) pos (pos + len) { r with bf } :=
    { reads with opened }
  obtain ⟨r', call, done, further⟩ := byIndex_stage sound backed narrow _ reads'
    (.inr (Nat.le_refl _)) (indexTable_lt _)
    (indirect_entries vol disk inode) here
  have positive := vol.perBlock_pos
  rw [Nat.add_assoc, Nat.sub_add_cancel positive] at further
  exact ⟨r', call, done, further⟩

theorem dindPass_reads {j : Nat} {idxBuf : Nat → Nat}
    (tables : ∀ i < vol.perBlock, idxBuf i = wordAt vol disk (inode.iBlock ext2DindBlock) i)
    (reads : Reads disk size (fileByte vol disk inode) pos (pos + len) r)
    (reached : Reached vol (ext2NdirBlocks + (j + 1) * vol.perBlock) r) (more : r.len ≠ 0)
    (less : j < vol.perBlock) :
    ∃ r', dindPass vol idxBuf (j, r) = some (.again (j + 1, r')) ∧
      Reads disk size (fileByte vol disk inode) pos (pos + len) r' ∧
      Reached vol (ext2NdirBlocks + (j + 1 + 1) * vol.perBlock) r' := by
  obtain ⟨here, before, some⟩ := reached.before more reads
  have positive := vol.perBlock_pos
  have table : vol.Holds size (wordAt vol disk (inode.iBlock ext2DindBlock) j) := by
    apply backed.tables some j less
    rw [Nat.add_mul j 1, Nat.one_mul] at before
    rw [Nat.add_assoc, Nat.add_comm vol.perBlock]
    exact before
  obtain ⟨bf, read, opened⟩ := readAt_reads sound reads.opened table
  have blk := Reads.blk backed narrow reads more
  have startIdx : wsub (wsub (r.blk vol) ext2NdirBlocks) (wrap ((j + 1) * vol.perBlock)) =
      r.pos / vol.iBlkSz - (ext2NdirBlocks + (j + 1) * vol.perBlock) := by
    have first : wsub (r.pos / vol.iBlkSz) ext2NdirBlocks = r.pos / vol.iBlkSz - ext2NdirBlocks :=
      wsub_of_le (by omega) blk.2
    rw [blk.1, first, wrap_of_lt (by omega), wsub_of_le (by omega) (by omega)]
    omega
  have reads' : Reads disk size (fileByte vol disk inode) pos (pos + len) { r with bf } :=
    { reads with opened }
  obtain ⟨r', call, done, further⟩ := byIndex_stage sound backed narrow _ reads'
    (.inr (Nat.le_refl _)) (indexTable_lt _)
    (dind_entries vol disk inode j) here
  refine ⟨r', ?_, done, ?_⟩
  · unfold dindPass
    dsimp only
    rw [if_pos ⟨more, less⟩, tables j less]
    simp only [read]
    rw [startIdx, show ext2ReadDataBlkByIndex vol
      (r.pos / vol.iBlkSz - (ext2NdirBlocks + (j + 1) * vol.perBlock)) _ _ _ = _
      from call]
  · have end_ : ext2NdirBlocks + (j + 1) * vol.perBlock + (vol.perBlock - 1) + 1 =
        ext2NdirBlocks + (j + 1 + 1) * vol.perBlock := by
      rw [Nat.add_mul (j + 1) 1, Nat.one_mul]
      omega
    rw [← end_]
    exact further

theorem readDoubleIndirect_reads (reads : Reads disk size (fileByte vol disk inode) pos (pos + len) r)
    (reached : Reached vol (ext2NdirBlocks + vol.perBlock) r) :
    ∃ r', readDoubleIndirect vol inode r = some (true, r') ∧
      Reads disk size (fileByte vol disk inode) pos (pos + len) r' ∧ r'.len = 0 := by
  unfold readDoubleIndirect
  by_cases empty : r.len = 0
  · rw [if_pos (.inl empty)]
    exact ⟨r, rfl, reads, empty⟩
  rw [if_neg (by simp [empty, sound.malloc])]
  obtain ⟨here, before, some⟩ := reached.before empty reads
  obtain ⟨bf, read, opened⟩ := readAt_reads sound reads.opened (backed.dind some before)
  simp only [read]
  let idxBuf := indexTable (bytes disk (vol.blockOff (inode.iBlock ext2DindBlock)) vol.iBlkSz)
  -- one pass for each table, until nothing is left or the tables are used up
  obtain ⟨⟨ok, r'⟩, left, isOk, done, nothing⟩ := @loop_variant _ _ (dindPass vol idxBuf)
    (fun s => s.1 ≤ vol.perBlock ∧ Reads disk size (fileByte vol disk inode) pos (pos + len) s.2 ∧
      Reached vol (ext2NdirBlocks + (s.1 + 1) * vol.perBlock) s.2)
    (fun s => vol.perBlock - s.1)
    (fun result => result.1 = true ∧ Reads disk size (fileByte vol disk inode) pos (pos + len)
      result.2 ∧ result.2.len = 0)
    (by
      rintro ⟨j, r⟩ ⟨bound, reads, reached⟩
      by_cases more : r.len ≠ 0 ∧ j < vol.perBlock
      · left
        obtain ⟨r', again, reads', further⟩ :=
          @dindPass_reads vol disk size pos len inode r sound backed narrow j idxBuf
          (fun i less => indexTable_bytes vol disk _ less) reads reached more.1 more.2
        refine ⟨(j + 1, r'), again, ⟨more.2, reads', further⟩, ?_⟩
        show vol.perBlock - (j + 1) < vol.perBlock - j
        omega
      · right
        refine ⟨(true, r), ?_, rfl, reads, ?_⟩
        · unfold dindPass
          dsimp only
          rw [if_neg more]
        · by_contra some
          have last : j = vol.perBlock := by
            simp only [not_and, Nat.not_lt] at more bound
            exact Nat.le_antisymm bound (more some)
          obtain ⟨_, within, more⟩ := reached.before some reads
          have range := backed.range more
          simp only [last, Volume.reach] at within range
          rw [Nat.add_mul vol.perBlock 1, Nat.one_mul, ← Nat.add_assoc, Nat.add_right_comm] at within
          omega)
    (vol.perBlock + 1) (0, { r with bf })
    ⟨Nat.zero_le _, { reads with opened }, by
      rw [Nat.zero_add, Nat.one_mul]
      exact reached⟩
    (by show vol.perBlock - 0 < vol.perBlock + 1; omega)
  refine ⟨r', ?_, done, nothing⟩
  rw [show ok = true from isOk] at left
  exact left

theorem read_is_bytewise {bf : BlockFile} (opened : Opened disk size bf) :
    ∃ bf', ext2ReadDataBlk vol bf len pos inode =
      some (some len, bytes (fileByte vol disk inode) pos len, bf') ∧ Opened disk size bf' := by
  have start : Reads disk size (fileByte vol disk inode) pos (pos + len) ⟨bf, [], len, pos⟩ :=
    ⟨opened, Nat.le_refl _, rfl, by simp [bytes]⟩
  have direct : ∃ r', ext2ReadDataBlkByIndex vol (Reading.blk vol ⟨bf, [], len, pos⟩)
    (ext2NdirBlocks - 1) inode.iBlock
      ⟨bf, [], len, pos⟩ = some (true, r') ∧ Reads disk size (fileByte vol disk inode) pos (pos + len) r' ∧
      Reached vol ext2NdirBlocks r' := by
    by_cases empty : len = 0
    · exact ⟨_, byIndex_empty vol _ _ _ empty, start, .inl empty⟩
    · have blk := Reads.blk backed narrow start empty
      obtain ⟨r', call, done, further⟩ := byIndex_stage sound backed narrow 0 start
        (.inl (by decide)) inode.word
        (direct_entries vol disk inode) (Nat.zero_le _)
      rw [blk.1]
      exact ⟨r', call, done, further⟩
  obtain ⟨r₁, call₁, reads₁, reached₁⟩ := direct
  obtain ⟨r₂, call₂, reads₂, reached₂⟩ := readIndirect_reads sound backed narrow reads₁ reached₁
  obtain ⟨r₃, call₃, reads₃, done⟩ := readDoubleIndirect_reads sound backed narrow reads₂ reached₂
  refine ⟨r₃.bf, ?_, reads₃.opened⟩
  have total := reads₃.total
  have all : r₃.pos - pos = len := by omega
  simp only [ext2ReadDataBlk, call₁, andThen, call₂, call₃, if_true, done, Nat.sub_zero, reads₃.buf, all]

end

theorem ext2_read_is_bytewise (sound : vol.Sound size) (mapped : Mapped vol size disk inode pos len)
    (narrow : Narrow vol pos len) {bf : BlockFile} (opened : Opened disk size bf) :
    ∃ bf', ext2ReadDataBlk vol bf len pos inode =
      some (some len, bytes (fileByte vol disk inode) pos len, bf') ∧ Opened disk size bf' :=
  read_is_bytewise sound mapped.backed narrow opened

def flatDisk (lba : Nat) : BlockDevice where
  blkSzLog2 := 9
  small := by decide
  lba := lba
  boRead := fun disk blkno cnt => some (bytes disk (blkno * 512) (cnt * 512))
  boWrite := fun disk blkno _ data => (true, write disk (blkno * 512) data)

theorem flatDisk_working (lba : Nat) : (flatDisk lba).Working := ⟨fun _ _ _ _ => rfl, fun _ _ _ _ _ _ => rfl⟩

def flatVolume (lba logBlockSize : Nat) (fits : logBlockSize ≤ 21) : Volume :=
  ⟨flatDisk lba, 0, logBlockSize, fits, fun _ => true, fun _ => true⟩

theorem flatVolume_sound (lba logBlockSize : Nat) (fits : logBlockSize ≤ 21) :
    (flatVolume lba logBlockSize fits).Sound (lba * 512) :=
  ⟨flatDisk_working lba, Nat.le_refl _, fun _ => rfl, fun _ => rfl⟩

def flatFile (disk : Memory) (size : Nat) : BlockFile := ⟨disk, .rdonly, 0, size, 0⟩

theorem flatFile_opened (disk : Memory) (size : Nat) : Opened disk size (flatFile disk size) := by
  refine ⟨?_, rfl, rfl, rfl⟩
  show AccMode.rdonly ≠ .wronly
  decide

def inodeOf (iSize a b c : Nat) (sized : iSize < 2^32) (words : a < 2^32 ∧ b < 2^32 ∧ c < 2^32) : Inode where
  iMode := 0o100644
  iSize := iSize
  iBlock := fun i => if i = 0 then a else if i = 1 then b else c
  sized := sized
  word := by
    intro i
    split
    · exact words.1
    · split
      · exact words.2.1
      · exact words.2.2

theorem ext2_read_across : ∃ bf, ext2ReadDataBlk (flatVolume 20 0 (by decide))
    (flatFile (fun a => UInt8.ofNat (a / 1024)) 10240) 3 1023 (inodeOf 2048 5 3 7 (by decide) (by decide)) =
      some (some 3, [5, 3, 3], bf) := by
  have mapped : Mapped (flatVolume 20 0 (by decide)) 10240 (fun a => UInt8.ofNat (a / 1024))
      (inodeOf 2048 5 3 7 (by decide) (by decide)) 1023 3 := by
    refine ⟨by
      decide, ?_, fun _ before => absurd before (by decide), fun _ before => absurd before (by decide), ?_⟩
    · intro n wanted
      have few : n = 0 ∨ n = 1 := by
        have before : n * 1024 < 1026 := wanted.2
        omega
      rcases few with rfl | rfl
      · exact ⟨by decide, show 0 * 512 + 5 * 1024 + 1024 ≤ 10240 by decide⟩
      · exact ⟨by decide, show 0 * 512 + 3 * 1024 + 1024 ≤ 10240 by decide⟩
    · intro _ i _ before
      have before : (12 + 256 + i * 256) * 1024 < 1026 := before
      omega
  obtain ⟨bf, call, _⟩ := ext2_read_is_bytewise (flatVolume_sound 20 0 (by decide)) mapped (.inl (by decide))
    (flatFile_opened (fun a => UInt8.ofNat (a / 1024)) 10240)
  exact ⟨bf, call⟩

/-- Blocks of 256 KiB: block 1 holds sevens, blocks 2 and 3 are tables that name blocks 3 and 4, and
    block 4 holds nines. -/
def hugeBlocks : Memory := fun a =>
  if a / 2^18 = 2 ∧ a % 4 = 0 then 3
  else if a / 2^18 = 3 ∧ a % 4 = 0 then 4
  else if a / 2^18 = 4 then 9
  else if a / 2^18 = 1 then 7
  else 0

theorem hugeBlocks_words (blk i : Nat) {word : Nat}
    (entry : (blk = 2 ∧ word = 3) ∨ (blk = 3 ∧ word = 4)) (less : i < 2^16) :
    wordAt (flatVolume 2560 8 (by decide)) hugeBlocks blk i = word := by
  have place : (flatVolume 2560 8 (by decide)).blockOff blk = blk * 2^18 := Nat.zero_add _
  have index : ∀ k < 4, (blk * 2^18 + 4 * i + k) / 2^18 = blk ∧ (blk * 2^18 + 4 * i + k) % 4 = k := by
    intro k bound
    omega
  have first := index 0 (by decide)
  rw [Nat.add_zero] at first
  simp only [wordAt, load32, place, hugeBlocks, first, index 1 (by decide), index 2 (by decide),
    index 3 (by decide)]
  rcases entry with ⟨rfl, rfl⟩ | ⟨rfl, rfl⟩ <;> rfl

theorem hugeBlocks_last : fileBlock (flatVolume 2560 8 (by decide)) hugeBlocks
    (inodeOf 0 1 1 2 (by decide) (by decide)) (2^32) = 4 := by
  have inner := hugeBlocks_words 2 65534 (.inl ⟨rfl, rfl⟩) (by decide)
  have outer := hugeBlocks_words 3 65524 (.inr ⟨rfl, rfl⟩) (by decide)
  have shape : fileBlock (flatVolume 2560 8 (by decide)) hugeBlocks
    (inodeOf 0 1 1 2 (by decide) (by decide)) (2^32) =
      wordAt (flatVolume 2560 8 (by decide)) hugeBlocks
        (wordAt (flatVolume 2560 8 (by decide)) hugeBlocks 2 65534)
        65524 := rfl
  rw [shape, inner, outer]

set_option maxRecDepth 4000 in
/-- With blocks of 256 KiB the number of file block 2^32 is cut to 0, and the first direct block is
    read in its place. -/
theorem huge_block_mistaken :
    (flatVolume 2560 8 (by decide)).Sound 1310720 ∧ Opened hugeBlocks 1310720 (flatFile hugeBlocks 1310720) ∧
    Mapped (flatVolume 2560 8 (by decide)) 1310720 hugeBlocks
      (inodeOf 0 1 1 2 (by decide) (by decide)) (2^50) 1 ∧
    (∃ bf, ext2ReadDataBlk (flatVolume 2560 8 (by decide)) (flatFile hugeBlocks 1310720) 1 (2^50)
      (inodeOf 0 1 1 2 (by decide) (by decide)) = some (some 1, [7], bf)) ∧
    bytes (fileByte (flatVolume 2560 8 (by decide)) hugeBlocks
      (inodeOf 0 1 1 2 (by decide) (by decide))) (2^50) 1 = [9] := by
  refine ⟨flatVolume_sound 2560 8 (by decide), flatFile_opened hugeBlocks 1310720, ?_, ⟨_, rfl⟩, ?_⟩
  · refine ⟨by decide, ?_, ?_, ?_, ?_⟩
    · intro n wanted
      have low : 2^50 / 2^18 ≤ n := wanted.1
      have high : n * 2^18 < 2^50 + 1 := wanted.2
      rw [show n = 2^32 by omega, hugeBlocks_last]
      exact ⟨by decide, show 0 * 512 + 4 * 2^18 + 2^18 ≤ 1310720 by decide⟩
    · intro _ _
      exact show 0 * 512 + 2 * 2^18 + 2^18 ≤ 1310720 by decide
    · intro _ _
      exact show 0 * 512 + 2 * 2^18 + 2^18 ≤ 1310720 by decide
    · intro _ i less _
      rw [show wordAt _ hugeBlocks ((inodeOf 0 1 1 2 (by decide) (by decide)).iBlock ext2DindBlock) i = 3 from
        hugeBlocks_words _ _ (.inl ⟨rfl, rfl⟩) less]
      exact show 0 * 512 + 3 * 2^18 + 2^18 ≤ 1310720 by decide
  · have byte : fileByte (flatVolume 2560 8 (by decide)) hugeBlocks
        (inodeOf 0 1 1 2 (by decide) (by decide)) (2^50) = 9 := by
      have here := fileByte_block (flatVolume 2560 8 (by decide)) hugeBlocks
        (inodeOf 0 1 1 2 (by decide) (by decide)) (2^32) (k := 0) (by decide)
      rw [hugeBlocks_last] at here
      exact here
    rw [bytes, byte]
    rfl

end Embryo.Fs
