import Embryo.Block.Array
import Embryo.Fs.Ext2

namespace Embryo.Fs

open Embryo.Machine Embryo.Block

variable {vol : Volume} {disk : Memory} {size : Nat}

structure Opened (disk : Memory) (size : Nat) (bf : BlockFile) : Prop where
  readable : bf.oflags ≠ .wronly
  disk : bf.disk = disk
  base : bf.bfBase = 0
  stop : bf.bfEnd = size

structure Volume.Sound (vol : Volume) (size : Nat) : Prop where
  working : vol.dev.Working
  inside : size ≤ vol.dev.lba * vol.dev.blkSz
  alloc : ∀ off, vol.alloc off = true
  malloc : ∀ n, vol.malloc n = true

theorem readAt_reads {bf : BlockFile} (sound : vol.Sound size) (opened : Opened disk size bf) {off len : Nat}
    (within : off + len ≤ size) :
    ∃ bf', readAt vol bf off len = some (some (bytes disk off len), bf') ∧ Opened disk size bf' := by
  have seek : (blkfileLseek bf off .set).2 = { bf with bfOffs := (off : Int) } := by
    simp only [blkfileLseek, BlockFile.sought]
    rw [if_neg]
    rw [opened.base, opened.stop]
    omega
  have whole : BlockFile.clipped { bf with bfOffs := (off : Int) } len = len := by
    simp only [BlockFile.clipped, opened.stop]
    rw [if_neg (by omega)]
  have moves := @blkfileXfer_moves vol.dev len { bf with bfOffs := (off : Int) } none sound.working
    (fun _ absent => absurd absent (Option.not_mem_none _))
    (by simp only [Int.toNat_natCast]; have := sound.inside; omega)
  refine ⟨{ bf with bfOffs := ((off + len : Nat) : Int) }, ?_,
    ⟨opened.readable, opened.disk, opened.base, opened.stop⟩⟩
  unfold readAt blkfileRead
  rw [seek, if_neg opened.readable, if_neg (by simp only [opened.stop]; omega), whole, sound.alloc, moves]
  simp only [if_true, copied, written, opened.disk, Int.toNat_natCast]

/-- The bytes of a file read so far: from `pos₀` to where the reading has come, out of those up to
    `stop`. -/
structure Reads (disk : Memory) (size : Nat) (file : Memory) (pos₀ stop : Nat) (r : Reading) : Prop where
  opened : Opened disk size r.bf
  ahead : pos₀ ≤ r.pos
  total : r.pos + r.len = stop
  buf : r.buf = bytes file pos₀ (r.pos - pos₀)

variable {file : Memory} {pos₀ stop : Nat} {r : Reading}

structure Together (disk : Memory) (size : Nat) (file : Memory) (pos off len : Nat) : Prop where
  inside : off + len ≤ size
  same : bytes disk off len = bytes file pos len

theorem Reads.fetch (reads : Reads disk size file pos₀ stop r) (sound : vol.Sound size) {off len : Nat}
    (bound : len ≤ r.len) (together : Together disk size file r.pos off len) :
    ∃ r', r.fetch vol off len = some (true, r') ∧ Reads disk size file pos₀ stop r' ∧
      r'.pos = r.pos + len := by
  obtain ⟨bf, read, opened⟩ := readAt_reads sound reads.opened together.inside
  refine ⟨⟨bf, r.buf ++ bytes disk off len, r.len - len, r.pos + len⟩, by
    simp only [Reading.fetch, read], ?_, rfl⟩
  have ahead := reads.ahead
  have total := reads.total
  refine ⟨opened, Nat.le_add_right_of_le ahead, ?_, ?_⟩
  · show r.pos + len + (r.len - len) = stop
    omega
  · show r.buf ++ bytes disk off len = bytes file pos₀ (r.pos + len - pos₀)
    have sum : r.pos + len - pos₀ = (r.pos - pos₀) + len := by omega
    have here : pos₀ + (r.pos - pos₀) = r.pos := by omega
    rw [reads.buf, together.same, sum, bytes_add, here]

theorem Volume.iBlkSz_pos (vol : Volume) : 0 < vol.iBlkSz := Nat.pow_pos (by decide)

def Wanted (vol : Volume) (pos₀ stop n : Nat) : Prop := pos₀ / vol.iBlkSz ≤ n ∧ n * vol.iBlkSz < stop

/-- The file blocks from `base` on are those of the table: where they are wanted they lie on the
    device, and the bytes of the file are theirs; no zero follows on the largest number. -/
structure Tabled (vol : Volume) (size : Nat) (disk file : Memory) (pos₀ stop base : Nat)
    (table : Nat → Nat) (endIdx : Nat) : Prop where
  word : ∀ i, table i < 2^32
  joined : ∀ i < endIdx, Wanted vol pos₀ stop (base + i) → Wanted vol pos₀ stop (base + i + 1) →
    table (i + 1) = 0 →
    table i ≠ 2^32 - 1
  inside : ∀ i ≤ endIdx, Wanted vol pos₀ stop (base + i) → vol.blockOff (table i) + vol.iBlkSz ≤ size
  bytes : ∀ i ≤ endIdx, Wanted vol pos₀ stop (base + i) → ∀ k < vol.iBlkSz,
    file ((base + i) * vol.iBlkSz + k) = disk (vol.blockOff (table i) + k)

theorem Volume.blockOff_add (vol : Volume) (blk k : Nat) :
    vol.blockOff (blk + k) = vol.blockOff blk + k * vol.iBlkSz := by
  simp only [Volume.blockOff, Nat.add_mul]
  omega

variable {base endIdx : Nat} {table : Nat → Nat}

theorem Tabled.together (tabled : Tabled vol size disk file pos₀ stop base table endIdx)
    {i len : Nat} (cnt : Nat) (positive : 0 < len)
    (begun : pos₀ / vol.iBlkSz ≤ base + i) (last : i + cnt ≤ endIdx)
    (bound : len ≤ (cnt + 1) * vol.iBlkSz) (within : (base + i) * vol.iBlkSz + len ≤ stop)
    (run : ∀ k ≤ cnt, (base + i + k) * vol.iBlkSz < stop → table (i + k) = table i + k) :
    Together disk size file ((base + i) * vol.iBlkSz) (vol.blockOff (table i)) len := by
  have unit := vol.iBlkSz_pos
  have place : ∀ x < len, x / vol.iBlkSz ≤ cnt ∧ (base + i + x / vol.iBlkSz) * vol.iBlkSz < stop := by
    intro x less
    have count : x / vol.iBlkSz < cnt + 1 := (Nat.div_lt_iff_lt_mul unit).mpr (by omega)
    have low := Nat.div_mul_le_self x vol.iBlkSz
    rw [Nat.add_mul]
    omega
  have entry : ∀ x < len, vol.blockOff (table (i + x / vol.iBlkSz)) =
      vol.blockOff (table i) + x / vol.iBlkSz * vol.iBlkSz := by
    intro x less
    rw [run _ (place x less).1 (place x less).2, vol.blockOff_add]
  constructor
  · have final := place (len - 1) (by omega)
    have inside := tabled.inside (i + (len - 1) / vol.iBlkSz) (by omega)
      ⟨begun.trans (Nat.add_le_add_left (Nat.le_add_right _ _) _), by rw [← Nat.add_assoc]; exact final.2⟩
    have split := Nat.div_add_mod' (len - 1) vol.iBlkSz
    have rest := Nat.mod_lt (len - 1) unit
    rw [entry (len - 1) (by omega)] at inside
    omega
  · apply bytes_shift
    intro x less
    obtain ⟨count, before⟩ := place x less
    have same := tabled.bytes (i + x / vol.iBlkSz) (by omega)
      ⟨begun.trans (Nat.add_le_add_left (Nat.le_add_right _ _) _), by rw [← Nat.add_assoc]; exact before⟩
      (x % vol.iBlkSz) (Nat.mod_lt x unit)
    have split := Nat.div_add_mod' x vol.iBlkSz
    rw [entry x less, ← Nat.add_assoc, Nat.add_mul] at same
    rw [Nat.add_assoc, split, Nat.add_assoc, split] at same
    exact same.symm

/-- What the loop knows: the run of `residCnt` blocks has been found to be consecutive, and as much of
    it as is wanted, or all of it, is to be read. -/
structure Merges (vol : Volume) (size : Nat) (disk file : Memory) (pos₀ stop base : Nat) (table : Nat → Nat)
    (endIdx : Nat) (g : Merging) : Prop where
  reads : Reads disk size file pos₀ stop g.r
  aligned : g.r.len ≠ 0 → g.r.pos = (base + g.startIdx) * vol.iBlkSz
  bound : g.startIdx ≤ endIdx + 1
  last : g.residCnt = 0 ∨ g.startIdx + g.residCnt ≤ endIdx
  off : g.off = vol.blockOff (table g.startIdx)
  run : ∀ k ≤ g.residCnt, (base + g.startIdx + k) * vol.iBlkSz < stop →
    table (g.startIdx + k) = table g.startIdx + k
  amount : g.residSize ≤ g.r.len
  shape : g.residSize = g.residCnt * vol.iBlkSz ∨
    (g.residSize = g.r.len ∧ g.residSize ≤ (g.residCnt + 1) * vol.iBlkSz ∧ g.startIdx + g.residCnt ≤ endIdx)

theorem Merges.begun {g : Merging} (merges : Merges vol size disk file pos₀ stop base table endIdx g)
    (more : g.r.len ≠ 0) : pos₀ / vol.iBlkSz ≤ base + g.startIdx := by
  have start := merges.aligned more
  have ahead := merges.reads.ahead
  rw [start] at ahead
  exact Nat.div_le_of_le_mul (by rw [Nat.mul_comm]; exact ahead)

def Unwrapped (vol : Volume) (endIdx len : Nat) : Prop := endIdx * vol.iBlkSz < 2^32 ∨ len + vol.iBlkSz ≤ 2^32

def Merging.variant (endIdx : Nat) (g : Merging) : Nat :=
  g.r.len + (endIdx + 1 - (g.startIdx + g.residCnt)) + if g.residSize < g.r.len then 1 else 0

section

variable {g : Merging} (merges : Merges vol size disk file pos₀ stop base table endIdx g)
  (more : g.r.len ≠ 0 ∧ g.residSize < g.r.len ∧ g.startIdx + g.residCnt ≤ endIdx)

include merges more

theorem Merges.run_size : g.residSize = g.residCnt * vol.iBlkSz := by
  rcases merges.shape with whole | ⟨all, _, _⟩
  · exact whole
  · omega

theorem Merges.extended (tabled : Tabled vol size disk file pos₀ stop base table endIdx)
    (unwrapped : Unwrapped vol endIdx (stop - pos₀)) (next : g.startIdx + g.residCnt < endIdx)
    (consecutive : wrap (table (g.startIdx + g.residCnt) + 1) = table (g.startIdx + g.residCnt + 1)) :
    wrap (g.residSize + vol.iBlkSz) = g.residSize + vol.iBlkSz ∧
    (g.residSize + vol.iBlkSz > g.r.len →
      Merges vol size disk file pos₀ stop base table endIdx { g with residSize := g.r.len }) ∧
    (g.residSize + vol.iBlkSz ≤ g.r.len → Merges vol size disk file pos₀ stop base table endIdx
      { g with residSize := g.residSize + vol.iBlkSz, residCnt := g.residCnt + 1 }) := by
  have whole := merges.run_size more
  have total := merges.reads.total
  have ahead := merges.reads.ahead
  have sum : (g.residCnt + 1) * vol.iBlkSz = g.residSize + vol.iBlkSz := by
    rw [Nat.add_mul, whole, Nat.one_mul]
  refine ⟨?_, ?_, ?_⟩
  · apply wrap_of_lt
    rcases unwrapped with table | length
    · have fewer : (g.residCnt + 1) * vol.iBlkSz ≤ endIdx * vol.iBlkSz := Nat.mul_le_mul_right _ (by omega)
      omega
    · omega
  · intro beyond
    refine { merges with amount := Nat.le_refl _, shape := .inr ⟨rfl, ?_, more.2.2⟩ }
    show g.r.len ≤ (g.residCnt + 1) * vol.iBlkSz
    omega
  · intro within
    have start := merges.aligned more.1
    refine { merges with last := .inr next, run := ?_, amount := within, shape := .inl sum.symm }
    intro k few before
    rcases Nat.lt_or_eq_of_le few with less | rfl
    · exact merges.run k (Nat.le_of_lt_succ less) before
    · -- the entry behind the run is wanted, so it is no number that has wrapped to zero
      change (base + g.startIdx + (g.residCnt + 1)) * vol.iBlkSz < stop at before
      have smaller : (base + g.startIdx + g.residCnt) * vol.iBlkSz ≤
          (base + g.startIdx + (g.residCnt + 1)) * vol.iBlkSz :=
        Nat.mul_le_mul_right _ (by omega)
      have entry := merges.run g.residCnt (Nat.le_refl _) (by omega)
      have begun := merges.begun more.1
      have joined := tabled.joined (g.startIdx + g.residCnt) next ⟨by omega, by rw [← Nat.add_assoc]; omega⟩
        ⟨by omega, by rw [← Nat.add_assoc]; exact before⟩
      have word := tabled.word (g.startIdx + g.residCnt)
      have plain : wrap (table (g.startIdx + g.residCnt) + 1) = table (g.startIdx + g.residCnt) + 1 := by
        rcases Nat.lt_or_ge (table (g.startIdx + g.residCnt) + 1) (2^32) with fits | full
        · exact wrap_of_lt fits
        · rw [show table (g.startIdx + g.residCnt) + 1 = 2^32 by omega] at consecutive
          exact absurd (by omega) (joined consecutive.symm)
      show table (g.startIdx + (g.residCnt + 1)) = table g.startIdx + (g.residCnt + 1)
      rw [← Nat.add_assoc, ← consecutive, plain, entry, Nat.add_assoc]

theorem Merges.sizes_cases :
    (g.sizes vol = (g.r.len, 0) ∧ g.residCnt = 0 ∧ g.r.len < vol.iBlkSz) ∨
    ∃ cnt, g.sizes vol = (cnt * vol.iBlkSz, cnt) ∧ 0 < cnt ∧ cnt * vol.iBlkSz ≤ g.r.len ∧
      (cnt = g.residCnt ∨ cnt = 1 ∧ g.residCnt = 0) := by
  have whole := merges.run_size more
  have unit := vol.iBlkSz_pos
  unfold Merging.sizes
  by_cases empty : g.residSize = 0
  · have none : g.residCnt = 0 := by
      rcases Nat.mul_eq_zero.mp (whole.symm.trans empty) with zero | zero
      · exact zero
      · omega
    rw [if_pos empty]
    by_cases part : vol.iBlkSz > g.r.len
    · rw [if_pos part, none]
      exact .inl ⟨rfl, rfl, part⟩
    · rw [if_neg part]
      exact .inr ⟨1, by rw [Nat.one_mul], by decide, by omega, .inr ⟨rfl, none⟩⟩
  · rw [if_neg empty, whole]
    refine .inr ⟨g.residCnt, rfl, Nat.pos_of_ne_zero ?_, ?_, .inl rfl⟩
    · intro zero
      rw [zero, Nat.zero_mul] at whole
      exact empty whole
    · rw [← whole]
      exact merges.amount

theorem Merges.fetched (tabled : Tabled vol size disk file pos₀ stop base table endIdx)
    (sound : vol.Sound size) :
    ∃ r, g.r.fetch vol g.off (g.sizes vol).1 = some (true, r) ∧ r.len < g.r.len ∧
      g.startIdx + g.residCnt ≤ g.startIdx + (g.sizes vol).2 ∧
      Merges vol size disk file pos₀ stop base table endIdx
        ⟨r, g.startIdx + (g.sizes vol).2, 0, 0, vol.blockOff (table (g.startIdx + (g.sizes vol).2))⟩ := by
  have total := merges.reads.total
  have start := merges.aligned more.1
  have begun := merges.begun more.1
  have fresh : ∀ idx, ∀ k ≤ 0, (base + idx + k) * vol.iBlkSz < stop → table (idx + k) = table idx + k := by
    intro idx k none _
    rw [Nat.le_zero.mp none, Nat.add_zero, Nat.add_zero]
  rcases merges.sizes_cases more with ⟨sizes, none, part⟩ | ⟨cnt, sizes, positive, fits, which⟩
  · rw [sizes]
    simp only
    have together : Together disk size file g.r.pos g.off g.r.len := by
      rw [start, merges.off]
      apply tabled.together 0 (by omega) begun (by omega) (by omega) (by omega) (fresh g.startIdx)
    obtain ⟨r, fetched, reads, moved⟩ := merges.reads.fetch sound (Nat.le_refl _) together
    have done := reads.total
    have empty : r.len = 0 := by omega
    refine ⟨r, fetched, by
      omega, by omega, ⟨reads, ?_, merges.bound, .inl rfl, rfl, fresh _, Nat.zero_le _, .inl ?_⟩⟩
    · intro left
      exact absurd empty left
    · exact (Nat.zero_mul _).symm
  · rw [sizes]
    simp only
    have within : g.startIdx + cnt ≤ endIdx + 1 := by omega
    have room : (cnt - 1 + 1) * vol.iBlkSz = cnt * vol.iBlkSz := by rw [Nat.sub_add_cancel positive]
    have together : Together disk size file g.r.pos g.off (cnt * vol.iBlkSz) := by
      rw [start, merges.off]
      apply tabled.together (cnt - 1) (Nat.mul_pos positive vol.iBlkSz_pos) begun (by omega)
        (by omega) (by omega)
      intro k few before
      exact merges.run k (by omega) before
    obtain ⟨r, fetched, reads, moved⟩ := merges.reads.fetch sound fits together
    have done := reads.total
    have some : 0 < cnt * vol.iBlkSz := Nat.mul_pos positive vol.iBlkSz_pos
    refine ⟨r, fetched, by
      omega, by omega, ⟨reads, ?_, within, .inl rfl, rfl, fresh _, Nat.zero_le _, .inl ?_⟩⟩
    · intro _
      show r.pos = (base + (g.startIdx + cnt)) * vol.iBlkSz
      rw [moved, start, ← Nat.add_assoc, Nat.add_mul _ cnt]
    · exact (Nat.zero_mul _).symm

end

variable {g : Merging}

theorem Merges.pass (merges : Merges vol size disk file pos₀ stop base table endIdx g)
    (tabled : Tabled vol size disk file pos₀ stop base table endIdx) (sound : vol.Sound size)
    (unwrapped : Unwrapped vol endIdx (stop - pos₀)) :
    (∃ next, mergePass vol table endIdx g = some (.again next) ∧
      Merges vol size disk file pos₀ stop base table endIdx next ∧ next.variant endIdx < g.variant endIdx) ∨
    ∃ result, mergePass vol table endIdx g = some (.leave result) ∧ result = (true, g) ∧
      ¬ (g.r.len ≠ 0 ∧ g.residSize < g.r.len ∧ g.startIdx + g.residCnt ≤ endIdx) := by
  unfold mergePass
  by_cases more : g.r.len ≠ 0 ∧ g.residSize < g.r.len ∧ g.startIdx + g.residCnt ≤ endIdx
  · left
    dsimp only
    rw [if_pos more]
    by_cases joined : g.startIdx + g.residCnt < endIdx ∧
        wrap (table (g.startIdx + g.residCnt) + 1) = table (g.startIdx + g.residCnt + 1)
    · rw [if_pos joined]
      obtain ⟨plain, partly, wholly⟩ := merges.extended more tabled unwrapped joined.1 joined.2
      rw [plain]
      by_cases beyond : g.residSize + vol.iBlkSz > g.r.len
      · rw [if_pos beyond]
        refine ⟨_, rfl, partly beyond, ?_⟩
        simp only [Merging.variant, if_pos more.2.1, Nat.lt_irrefl, if_false]
        omega
      · rw [if_neg beyond]
        refine ⟨_, rfl, wholly (by omega), ?_⟩
        have third : (if g.residSize + vol.iBlkSz < g.r.len then 1 else 0) ≤ 1 := by split <;> omega
        simp only [Merging.variant, if_pos more.2.1]
        omega
    · rw [if_neg joined]
      obtain ⟨r, fetched, less, further, kept⟩ := merges.fetched more tabled sound
      simp only [fetched]
      refine ⟨_, rfl, kept, ?_⟩
      have third : (if 0 < r.len then 1 else 0) ≤ 1 := by split <;> omega
      simp only [Merging.variant, if_pos more.2.1, Nat.add_zero]
      omega
  · right
    dsimp only
    rw [if_neg more]
    exact ⟨_, rfl, rfl, more⟩

theorem Merges.merged (merges : Merges vol size disk file pos₀ stop base table endIdx g)
    (tabled : Tabled vol size disk file pos₀ stop base table endIdx) (sound : vol.Sound size)
    (unwrapped : Unwrapped vol endIdx (stop - pos₀)) :
    ∃ r, merged vol table endIdx g = some (true, r) ∧ Reads disk size file pos₀ stop r ∧
      (r.len = 0 ∨ r.pos = (base + endIdx + 1) * vol.iBlkSz) := by
  have bound : g.variant endIdx < g.r.len + endIdx + 3 := by
    have third : (if g.residSize < g.r.len then 1 else 0) ≤ 1 := by split <;> omega
    unfold Merging.variant
    omega
  obtain ⟨⟨ok, h⟩, left, isOk, merges, ended⟩ := @loop_variant _ _ (mergePass vol table endIdx)
    (Merges vol size disk file pos₀ stop base table endIdx) (Merging.variant endIdx)
    (fun result => result.1 = true ∧ Merges vol size disk file pos₀ stop base table endIdx result.2 ∧
      ¬ (result.2.r.len ≠ 0 ∧ result.2.residSize < result.2.r.len ∧
        result.2.startIdx + result.2.residCnt ≤ endIdx))
    (by
      intro g merges
      rcases merges.pass tabled sound unwrapped with again | ⟨result, left, rfl, ended⟩
      · exact .inl again
      · exact .inr ⟨_, left, rfl, merges, ended⟩)
    _ g merges bound
  simp only at isOk merges ended
  subst isOk
  unfold Fs.merged
  simp only [left]
  have unit := vol.iBlkSz_pos
  have last := merges.last
  have amount := merges.amount
  by_cases empty : h.r.len = 0
  · rw [if_pos empty]
    exact ⟨h.r, rfl, merges.reads, .inl empty⟩
  rw [if_neg empty]
  have start := merges.aligned empty
  have total := merges.reads.total
  by_cases none : h.residSize = 0
  · have noRun : h.residCnt = 0 := by
      rcases merges.shape with whole | ⟨all, _, _⟩
      · rcases Nat.mul_eq_zero.mp (whole.symm.trans none) with zero | zero
        · exact zero
        · omega
      · omega
    have bound := merges.bound
    have final : h.startIdx = endIdx + 1 := by omega
    rw [if_neg (not_not.mpr none)]
    refine ⟨h.r, rfl, merges.reads, .inr ?_⟩
    rw [start, final, Nat.add_assoc]
  · have within : h.startIdx + h.residCnt ≤ endIdx ∧ h.residSize ≤ (h.residCnt + 1) * vol.iBlkSz := by
      rcases merges.shape with whole | ⟨_, part, here⟩
      · rcases last with zero | here
        · rw [zero, Nat.zero_mul] at whole
          exact absurd whole none
        · rw [Nat.add_mul]
          omega
      · exact ⟨here, part⟩
    have together : Together disk size file h.r.pos h.off h.residSize := by
      rw [start, merges.off]
      exact tabled.together _ (by omega) (merges.begun empty) within.1 within.2 (by omega) merges.run
    obtain ⟨r, fetched, reads, moved⟩ := merges.reads.fetch sound amount together
    have done := reads.total
    rw [if_pos none]
    exact ⟨r, fetched, reads, .inl (by omega)⟩

theorem Tabled.part (tabled : Tabled vol size disk file pos₀ stop base table endIdx) {i : Nat}
    (o len : Nat) (last : i ≤ endIdx)
    (wanted : Wanted vol pos₀ stop (base + i)) (bound : o + len ≤ vol.iBlkSz) :
    Together disk size file ((base + i) * vol.iBlkSz + o) (vol.blockOff (table i) + o) len := by
  have inside := tabled.inside i last wanted
  refine ⟨by omega, ?_⟩
  apply bytes_shift
  intro k less
  have same := tabled.bytes i last wanted (o + k) (by omega)
  rw [← Nat.add_assoc, ← Nat.add_assoc] at same
  exact same.symm

theorem byIndex_reads (reads : Reads disk size file pos₀ stop r)
    (tabled : Tabled vol size disk file pos₀ stop base table endIdx)
    (sound : vol.Sound size) (unwrapped : Unwrapped vol endIdx (stop - pos₀)) {startIdx : Nat}
    (here : r.pos / vol.iBlkSz = base + startIdx) (within : startIdx ≤ endIdx) :
    ∃ r', ext2ReadDataBlkByIndex vol startIdx endIdx table r = some (true, r') ∧
      Reads disk size file pos₀ stop r' ∧
      (r'.len = 0 ∨ r'.pos = (base + endIdx + 1) * vol.iBlkSz) := by
  have unit := vol.iBlkSz_pos
  have total := reads.total
  have split := Nat.div_add_mod' r.pos vol.iBlkSz
  have rest := Nat.mod_lt r.pos unit
  rw [here] at split
  have begun : pos₀ / vol.iBlkSz ≤ base + startIdx := here ▸ Nat.div_le_div_right reads.ahead
  have fresh : ∀ idx, ∀ k ≤ 0, (base + idx + k) * vol.iBlkSz < stop → table (idx + k) = table idx + k := by
    intro idx k none _
    rw [Nat.le_zero.mp none, Nat.add_zero, Nat.add_zero]
  unfold ext2ReadDataBlkByIndex
  rw [if_neg (by omega)]
  dsimp only
  by_cases short : vol.iBlkSz - r.pos % vol.iBlkSz > r.len
  · -- all of it lies in this block, and the loop is not entered
    rw [if_pos short]
    have left : loop (mergePass vol table endIdx) (r.len + endIdx + 3)
        ⟨r, startIdx, r.len, 0, vol.blockOff (table startIdx) + r.pos % vol.iBlkSz⟩ =
        some (true, ⟨r, startIdx, r.len, 0, vol.blockOff (table startIdx) + r.pos % vol.iBlkSz⟩) := by
      apply loop_leave (by omega)
      unfold mergePass
      dsimp only
      rw [if_neg (by omega)]
    unfold merged
    simp only [left]
    by_cases empty : r.len = 0
    · rw [if_pos empty]
      exact ⟨r, rfl, reads, .inl empty⟩
    · rw [if_neg empty, if_pos empty]
      have together := tabled.part (r.pos % vol.iBlkSz) r.len within ⟨begun, by omega⟩ (by omega)
      rw [split] at together
      obtain ⟨r', fetched, reads', moved⟩ := reads.fetch sound (Nat.le_refl _) together
      have done := reads'.total
      exact ⟨r', fetched, reads', .inl (by omega)⟩
  rw [if_neg short]
  by_cases aligned : vol.iBlkSz - r.pos % vol.iBlkSz = vol.iBlkSz
  · rw [if_pos aligned]
    apply Merges.merged _ tabled sound unwrapped
    refine ⟨reads, fun _ => ?_, Nat.le_succ_of_le within, .inl rfl, ?_, fresh startIdx,
      Nat.zero_le _, .inl (Nat.zero_mul _).symm⟩
    · show r.pos = (base + startIdx) * vol.iBlkSz
      omega
    · show vol.blockOff (table startIdx) + r.pos % vol.iBlkSz = vol.blockOff (table startIdx)
      omega
  · rw [if_neg aligned]
    have together := tabled.part (r.pos % vol.iBlkSz) (vol.iBlkSz - r.pos % vol.iBlkSz) within
      ⟨begun, by omega⟩ (by omega)
    rw [split] at together
    obtain ⟨r', fetched, reads', moved⟩ := reads.fetch sound (by omega) together
    simp only [fetched]
    apply Merges.merged _ tabled sound unwrapped
    refine ⟨reads', fun _ => ?_, Nat.succ_le_succ within, .inl rfl, rfl, fresh (startIdx + 1), Nat.zero_le _,
      .inl (Nat.zero_mul _).symm⟩
    show r'.pos = (base + (startIdx + 1)) * vol.iBlkSz
    rw [← Nat.add_assoc, Nat.add_mul _ 1, Nat.one_mul]
    omega

end Embryo.Fs
