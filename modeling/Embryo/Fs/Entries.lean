import Embryo.Fs.BlockMap

namespace Embryo.Fs

open Embryo.Machine Embryo.Block

/-- Where the loop of `ext2_read_data_blk_by_index` begins, unless the read up to the end of the
    first block fails. -/
def loopStart (vol : Volume) (startIdx : Nat) (table : Nat → Nat) (r : Reading) : Option Merging :=
  let head := vol.iBlkSz - r.pos % vol.iBlkSz
  let off := vol.blockOff (table startIdx) + r.pos % vol.iBlkSz
  if head > r.len then some ⟨r, startIdx, r.len, 0, off⟩
  else if head = vol.iBlkSz then some ⟨r, startIdx, 0, 0, off⟩
  else
    match r.fetch vol off head with
    | some (true, r) => some ⟨r, startIdx + 1, 0, 0, vol.blockOff (table (startIdx + 1))⟩
    | _ => none

/-- The entries that one pass through the loop reads: those it compares, and the one behind what has
    been read. -/
def passEntries (vol : Volume) (table : Nat → Nat) (endIdx : Nat) (g : Merging) : List Nat :=
  let i := g.startIdx + g.residCnt
  if g.r.len ≠ 0 ∧ g.residSize < g.r.len ∧ i ≤ endIdx then
    (if i < endIdx then [i, i + 1] else []) ++
      if i < endIdx ∧ wrap (table i + 1) = table (i + 1) then []
      else
        match g.r.fetch vol g.off (g.sizes vol).1 with
        | some (true, _) => [g.startIdx + (g.sizes vol).2]
        | _ => []
  else []

/-- The entries of the table that a call reads: the first one, the one the loop begins with, and
    those of its passes. -/
def EntryRead (vol : Volume) (startIdx endIdx : Nat) (table : Nat → Nat) (r : Reading) (n : Nat) : Prop :=
  startIdx ≤ endIdx ∧
    (n = startIdx ∨ ∃ begun, loopStart vol startIdx table r = some begun ∧
      (n = begun.startIdx ∨ ∃ g, Visits (mergePass vol table endIdx) begun g ∧
        n ∈ passEntries vol table endIdx g))

def ReadFails (vol : Volume) (startIdx endIdx : Nat) (table : Nat → Nat) (r : Reading) : Prop :=
  loopStart vol startIdx table r = none ∨ ∃ begun g, loopStart vol startIdx table r = some begun ∧
    Visits (mergePass vol table endIdx) begun g ∧
      (mergePass vol table endIdx g = none ∨ ∃ h, mergePass vol table endIdx g = some (.leave (false, h)))

variable {vol : Volume} {startIdx endIdx : Nat} {table : Nat → Nat} {r : Reading}

theorem fetch_len {r r' : Reading} {off size : Nat}
    (fetched : r.fetch vol off size = some (true, r')) : r'.len = r.len - size := by
  unfold Reading.fetch at fetched
  split at fetched
  · cases fetched
  · cases fetched
  · cases fetched
    rfl

def Merging.stop (vol : Volume) (g : Merging) : Nat := g.startIdx * vol.iBlkSz + g.r.len

theorem loopStart_spec {begun : Merging} (start : loopStart vol startIdx table r = some begun) :
    begun.r.len ≤ r.len ∧ begun.residCnt = 0 ∧
      (begun.residSize = begun.r.len ∧ begun.startIdx = startIdx ∧ r.pos % vol.iBlkSz + r.len < vol.iBlkSz ∨
        begun.residSize = 0 ∧ vol.iBlkSz ≤ r.pos % vol.iBlkSz + r.len ∧
          begun.stop vol = startIdx * vol.iBlkSz + r.pos % vol.iBlkSz + r.len ∧
            (begun.startIdx = startIdx ∨ begun.startIdx = startIdx + 1)) := by
  have rest := Nat.mod_lt r.pos vol.iBlkSz_pos
  unfold loopStart at start
  simp only at start
  split at start
  · cases start
    exact ⟨Nat.le_refl _, rfl, .inl ⟨rfl, rfl, by omega⟩⟩
  · split at start
    · next aligned =>
      cases start
      refine ⟨Nat.le_refl _, rfl, .inr ⟨rfl, by omega, ?_, .inl rfl⟩⟩
      show startIdx * vol.iBlkSz + r.len = _
      omega
    · split at start
      · next r' fetched =>
        have left := fetch_len fetched
        cases start
        refine ⟨?_, rfl, .inr ⟨rfl, by omega, ?_, .inr rfl⟩⟩
        · show r'.len ≤ r.len
          omega
        · show (startIdx + 1) * vol.iBlkSz + r'.len = _
          rw [left, Nat.add_mul, Nat.one_mul]
          omega
      · cases start

/-- What the loop keeps: a run of whole blocks within the table, or all that is left, and this ends
    where it did. -/
structure Runs (vol : Volume) (endIdx len stop : Nat) (g : Merging) : Prop where
  short : g.r.len ≤ len
  amount : g.residSize ≤ g.r.len
  last : g.residCnt = 0 ∨ g.startIdx + g.residCnt ≤ endIdx
  shape : g.residSize = g.residCnt * vol.iBlkSz ∨ g.residSize = g.r.len
  stops : g.r.len = 0 ∨ g.stop vol = stop

variable {g next : Merging} {len stop : Nat}

theorem Runs.sizes (runs : Runs vol endIdx len stop g)
    (more : g.r.len ≠ 0 ∧ g.residSize < g.r.len ∧ g.startIdx + g.residCnt ≤ endIdx) :
    g.sizes vol = (g.r.len, 0) ∧ g.r.len < vol.iBlkSz ∨
      g.sizes vol = (vol.iBlkSz, 1) ∧ g.residCnt = 0 ∧ vol.iBlkSz ≤ g.r.len ∨
        g.sizes vol = (g.residCnt * vol.iBlkSz, g.residCnt) ∧ 0 < g.residCnt ∧
          g.residSize = g.residCnt * vol.iBlkSz := by
  have unit := vol.iBlkSz_pos
  have whole : g.residSize = g.residCnt * vol.iBlkSz := runs.shape.resolve_right (by omega)
  unfold Merging.sizes
  by_cases empty : g.residSize = 0
  · have none : g.residCnt = 0 := by
      rcases Nat.mul_eq_zero.mp (whole.symm.trans empty) with zero | zero
      · exact zero
      · omega
    rw [if_pos empty]
    by_cases part : vol.iBlkSz > g.r.len
    · rw [if_pos part, none]
      exact .inl ⟨rfl, part⟩
    · rw [if_neg part]
      exact .inr (.inl ⟨rfl, none, by omega⟩)
  · rw [if_neg empty, whole]
    refine .inr (.inr ⟨rfl, Nat.pos_of_ne_zero fun zero => empty ?_, rfl⟩)
    rw [whole, zero, Nat.zero_mul]

theorem mergePass_again (unwrapped : Unwrapped vol endIdx len) (runs : Runs vol endIdx len stop g)
    (again : mergePass vol table endIdx g = some (.again next)) :
    (g.r.len ≠ 0 ∧ g.residSize < g.r.len ∧ g.startIdx + g.residCnt ≤ endIdx) ∧
      (g.startIdx + g.residCnt < endIdx ∧
          (g.residSize + vol.iBlkSz > g.r.len ∧ next = { g with residSize := g.r.len } ∨
            g.residSize + vol.iBlkSz ≤ g.r.len ∧
              next = { g with residSize := g.residSize + vol.iBlkSz, residCnt := g.residCnt + 1 }) ∨
        ¬ (g.startIdx + g.residCnt < endIdx ∧ wrap (table (g.startIdx + g.residCnt) + 1) =
          table (g.startIdx + g.residCnt + 1)) ∧
          ∃ r, g.r.fetch vol g.off (g.sizes vol).1 = some (true, r) ∧
            next = ⟨r, g.startIdx + (g.sizes vol).2, 0, 0,
                vol.blockOff (table (g.startIdx + (g.sizes vol).2))⟩) := by
  unfold mergePass at again
  simp only at again
  split at again
  · next more =>
    refine ⟨more, ?_⟩
    split at again
    · next joined =>
      left
      have plain : wrap (g.residSize + vol.iBlkSz) = g.residSize + vol.iBlkSz := by
        apply wrap_of_lt
        have short := runs.short
        rcases unwrapped with table | length
        · have whole : g.residSize = g.residCnt * vol.iBlkSz := runs.shape.resolve_right (by omega)
          have fewer : (g.residCnt + 1) * vol.iBlkSz ≤ endIdx * vol.iBlkSz :=
            Nat.mul_le_mul_right _ (by omega)
          rw [Nat.add_mul, Nat.one_mul] at fewer
          omega
        · omega
      rw [plain] at again
      refine ⟨joined.1, ?_⟩
      split at again
      · next beyond =>
        cases again
        exact .inl ⟨beyond, rfl⟩
      · next beyond =>
        cases again
        exact .inr ⟨by omega, rfl⟩
    · next joined =>
      right
      refine ⟨joined, ?_⟩
      split at again
      · cases again
      · cases again
      · next r' fetched =>
        cases again
        exact ⟨r', fetched, rfl⟩
  · cases again

theorem Runs.pass (unwrapped : Unwrapped vol endIdx len) (runs : Runs vol endIdx len stop g)
    (again : mergePass vol table endIdx g = some (.again next)) : Runs vol endIdx len stop next := by
  obtain ⟨more, ⟨inside, ⟨beyond, rfl⟩ | ⟨within, rfl⟩⟩ | ⟨_, r', fetched, rfl⟩⟩ :=
    mergePass_again unwrapped runs again
  · exact ⟨runs.short, Nat.le_refl _, runs.last, .inr rfl, runs.stops⟩
  · have whole : g.residSize = g.residCnt * vol.iBlkSz := runs.shape.resolve_right (by omega)
    refine ⟨runs.short, within, .inr inside, .inl ?_, runs.stops⟩
    show g.residSize + vol.iBlkSz = (g.residCnt + 1) * vol.iBlkSz
    rw [Nat.add_mul, Nat.one_mul, whole]
  · have left := fetch_len fetched
    have ends := runs.stops.resolve_left more.1
    refine ⟨?_, Nat.zero_le _, .inl rfl, .inl (Nat.zero_mul _).symm, ?_⟩
    · show r'.len ≤ len
      have short := runs.short
      omega
    · show r'.len = 0 ∨ (g.startIdx + (g.sizes vol).2) * vol.iBlkSz + r'.len = stop
      rw [left]
      unfold Merging.stop at ends
      rcases runs.sizes more with ⟨part, _⟩ | ⟨one, _, room⟩ | ⟨run, _, whole⟩
      · rw [part, Nat.sub_self]
        exact .inl rfl
      · rw [one, Nat.add_mul, Nat.one_mul]
        right
        omega
      · rw [run, Nat.add_mul]
        right
        simp only
        omega

theorem Runs.visits (unwrapped : Unwrapped vol endIdx len) (runs : Runs vol endIdx len stop g)
    (visits : Visits (mergePass vol table endIdx) g next) : Runs vol endIdx len stop next := by
  induction visits with
  | here => exact runs
  | again _ passed ih => exact ih.pass unwrapped passed

theorem Runs.bounded (runs : Runs vol endIdx len stop g) (ends : stop < (endIdx + 1) * vol.iBlkSz) {n : Nat}
    (read : n ∈ passEntries vol table endIdx g) : n ≤ endIdx := by
  unfold passEntries at read
  simp only at read
  split at read
  · next more =>
    rcases List.mem_append.mp read with compared | behind
    · split at compared
      · next inside =>
        rcases List.mem_pair.mp compared with rfl | rfl <;> omega
      · cases compared
    · split at behind
      · cases behind
      · split at behind
        · rw [List.mem_singleton.mp behind]
          have stops := runs.stops.resolve_left more.1
          unfold Merging.stop at stops
          rcases runs.sizes more with ⟨part, _⟩ | ⟨one, _, room⟩ | ⟨run, _, _⟩
          · rw [part]
            show g.startIdx + 0 ≤ endIdx
            omega
          · rw [one]
            show g.startIdx + 1 ≤ endIdx
            by_contra last
            have here : g.startIdx = endIdx := by omega
            rw [here] at stops
            rw [Nat.add_mul, Nat.one_mul] at ends
            omega
          · rw [run]
            exact more.2.2
        · cases behind
  · cases read

structure Whole (vol : Volume) (endIdx len : Nat) (g : Merging) : Prop where
  short : g.r.len ≤ len
  size : g.residSize = g.residCnt * vol.iBlkSz
  last : g.startIdx + g.residCnt ≤ endIdx
  reaches : (endIdx + 1) * vol.iBlkSz ≤ g.stop vol

theorem Whole.runs (whole : Whole vol endIdx len g) :
    Runs vol endIdx len (g.stop vol) g ∧
      (g.r.len ≠ 0 ∧ g.residSize < g.r.len ∧ g.startIdx + g.residCnt ≤ endIdx) ∧
        (g.residCnt + 1) * vol.iBlkSz ≤ g.r.len := by
  have unit := vol.iBlkSz_pos
  have size := whole.size
  have last := whole.last
  have reaches := whole.reaches
  have blocks : (g.startIdx + (g.residCnt + 1)) * vol.iBlkSz ≤ (endIdx + 1) * vol.iBlkSz :=
    Nat.mul_le_mul_right _ (by omega)
  rw [Nat.add_mul] at blocks
  unfold Merging.stop at reaches
  have room : (g.residCnt + 1) * vol.iBlkSz ≤ g.r.len := by omega
  have split : (g.residCnt + 1) * vol.iBlkSz = g.residCnt * vol.iBlkSz + vol.iBlkSz := by
    rw [Nat.add_mul, Nat.one_mul]
  exact ⟨⟨whole.short, by omega, .inr last, .inl size, .inr rfl⟩, ⟨by omega, by omega, last⟩, room⟩

def Merging.ahead (endIdx : Nat) (g : Merging) : Nat :=
  (endIdx + 1 - g.startIdx) + (endIdx + 1 - (g.startIdx + g.residCnt))

theorem Whole.pass (whole : Whole vol endIdx len g) (unwrapped : Unwrapped vol endIdx len)
    (answers : ¬ (mergePass vol table endIdx g = none ∨ ∃ h, mergePass vol table endIdx g =
      some (.leave (false, h)))) :
    endIdx + 1 ∈ passEntries vol table endIdx g ∨
      ∃ next, mergePass vol table endIdx g = some (.again next) ∧ Whole vol endIdx len next ∧
        next.ahead endIdx < g.ahead endIdx := by
  obtain ⟨runs, more, room⟩ := whole.runs
  have last := whole.last
  have reaches := whole.reaches
  unfold Merging.stop at reaches
  have split : (g.residCnt + 1) * vol.iBlkSz = g.residCnt * vol.iBlkSz + vol.iBlkSz := by
    rw [Nat.add_mul, Nat.one_mul]
  have goesOn : ∃ next, mergePass vol table endIdx g = some (.again next) := by
    cases passed : mergePass vol table endIdx g with
    | none => exact absurd (.inl passed) answers
    | some pass =>
      cases pass with
      | again next => exact ⟨next, rfl⟩
      | leave result =>
        exfalso
        have passed' := passed
        unfold mergePass at passed'
        simp only at passed'
        rw [if_pos more] at passed'
        split at passed'
        · split at passed' <;> cases passed'
        · split at passed'
          · cases passed'
          · cases passed'
            exact answers (.inr ⟨_, passed⟩)
          · cases passed'
  obtain ⟨next, again⟩ := goesOn
  obtain ⟨_, ⟨inside, ⟨beyond, _⟩ | ⟨within, rfl⟩⟩ | ⟨apart, r', fetched, rfl⟩⟩ :=
    mergePass_again unwrapped runs again
  · have size := whole.size
    omega
  · right
    refine ⟨_, again, ⟨whole.short, ?_, inside, whole.reaches⟩, ?_⟩
    · show g.residSize + vol.iBlkSz = (g.residCnt + 1) * vol.iBlkSz
      rw [split, whole.size]
    · show (endIdx + 1 - g.startIdx) + (endIdx + 1 - (g.startIdx + (g.residCnt + 1))) < g.ahead endIdx
      unfold Merging.ahead
      omega
  · have left := fetch_len fetched
    have short := whole.short
    rcases runs.sizes more with ⟨_, part⟩ | ⟨one, none, full⟩ | ⟨run, positive, size⟩
    · omega
    · rw [one] at fetched left again
      by_cases ends : g.startIdx = endIdx
      · left
        unfold passEntries
        simp only
        rw [if_pos more, if_neg (show ¬ (g.startIdx + g.residCnt < endIdx ∧ _) from apart), one, fetched]
        simp [ends]
      · right
        refine ⟨_, again, ⟨?_, (Nat.zero_mul _).symm, ?_, ?_⟩, ?_⟩
        · show r'.len ≤ len
          omega
        · show g.startIdx + 1 + 0 ≤ endIdx
          omega
        · show (endIdx + 1) * vol.iBlkSz ≤ (g.startIdx + 1) * vol.iBlkSz + r'.len
          rw [left, Nat.add_mul g.startIdx, Nat.one_mul]
          simp only
          omega
        · show (endIdx + 1 - (g.startIdx + 1)) + (endIdx + 1 - (g.startIdx + 1 + 0)) < g.ahead endIdx
          unfold Merging.ahead
          omega
    · rw [run] at fetched left again
      right
      refine ⟨_, again, ⟨?_, (Nat.zero_mul _).symm, ?_, ?_⟩, ?_⟩
      · show r'.len ≤ len
        omega
      · show g.startIdx + g.residCnt + 0 ≤ endIdx
        omega
      · show (endIdx + 1) * vol.iBlkSz ≤ (g.startIdx + g.residCnt) * vol.iBlkSz + r'.len
        rw [left, Nat.add_mul g.startIdx]
        simp only
        omega
      · show (endIdx + 1 - (g.startIdx + g.residCnt)) +
          (endIdx + 1 - (g.startIdx + g.residCnt + 0)) < g.ahead endIdx
        unfold Merging.ahead
        omega

theorem Whole.reads_behind {begun : Merging} (unwrapped : Unwrapped vol endIdx len)
    (answers : ∀ g, Visits (mergePass vol table endIdx) begun g →
      ¬ (mergePass vol table endIdx g = none ∨ ∃ h, mergePass vol table endIdx g = some (.leave (false, h))))
    (visits : Visits (mergePass vol table endIdx) begun g) (whole : Whole vol endIdx len g) :
    ∃ g, Visits (mergePass vol table endIdx) begun g ∧ endIdx + 1 ∈ passEntries vol table endIdx g := by
  generalize measure : g.ahead endIdx = m
  induction m using Nat.strong_induction_on generalizing g with
  | _ m ih =>
    rcases whole.pass unwrapped (answers g visits) with behind | ⟨next, again, kept, less⟩
    · exact ⟨g, visits, behind⟩
    · exact ih (next.ahead endIdx) (measure ▸ less) (visits.again again) kept rfl

/-- A pass that reads an entry behind the table reads the last of it, and is followed by one that
    ends the loop. -/
theorem passEntries_behind {n : Nat} (read : n ∈ passEntries vol table endIdx g) (beyond : endIdx < n) :
    ∃ next, mergePass vol table endIdx g = some (.again next) ∧
      mergePass vol table endIdx next = some (.leave (true, next)) := by
  unfold passEntries at read
  simp only at read
  split at read
  · next more =>
    rcases List.mem_append.mp read with compared | behind
    · split at compared
      · next inside =>
        rcases List.mem_pair.mp compared with rfl | rfl <;> omega
      · cases compared
    · split at behind
      · cases behind
      · next apart =>
        split at behind
        · next r' fetched =>
          rw [List.mem_singleton.mp behind] at beyond
          refine ⟨⟨r', g.startIdx + (g.sizes vol).2, 0, 0,
            vol.blockOff (table (g.startIdx + (g.sizes vol).2))⟩, ?_, ?_⟩
          · unfold mergePass
            simp only
            rw [if_pos more, if_neg apart, fetched]
          · unfold mergePass
            simp only
            rw [if_neg (by omega)]
        · cases behind
  · cases read

theorem answered_behind {begun fail : Merging}
    (visits : Visits (mergePass vol table endIdx) begun g) {n : Nat}
    (read : n ∈ passEntries vol table endIdx g) (beyond : endIdx < n)
    (later : Visits (mergePass vol table endIdx) begun fail) :
    ¬ (mergePass vol table endIdx fail = none ∨ ∃ h, mergePass vol table endIdx fail =
      some (.leave (false, h))) := by
  obtain ⟨next, again, ended⟩ := passEntries_behind read beyond
  have notAgain : ∀ t, mergePass vol table endIdx fail = some (.again t) →
      ¬ (mergePass vol table endIdx fail = none ∨ ∃ h, mergePass vol table endIdx fail =
          some (.leave (false, h))) := by
    rintro t goes (fault | ⟨h, left⟩)
    · rw [goes] at fault
      cases fault
    · rw [goes] at left
      cases left
  rcases visits.linear later with onward | back
  · rcases onward.first with rfl | ⟨t, first, rest⟩
    · exact notAgain next again
    · rw [again] at first
      cases first
      rcases rest.first with rfl | ⟨t, first, _⟩
      · rw [ended]
        rintro (fault | ⟨h, left⟩)
        · cases fault
        · cases left
      · rw [ended] at first
        cases first
  · rcases back.first with rfl | ⟨t, first, _⟩
    · exact notAgain next again
    · exact notAgain t first

/-- The entries read are in the table if and only if not all of it is asked for, or the call does
    not come that far. -/
theorem entries_bounded_iff (unwrapped : Unwrapped vol endIdx r.len) :
    (∀ n, EntryRead vol startIdx endIdx table r n → n ≤ endIdx) ↔
      endIdx < startIdx ∨ r.pos % vol.iBlkSz + r.len < (endIdx + 1 - startIdx) * vol.iBlkSz ∨
        ReadFails vol startIdx endIdx table r := by
  have unit := vol.iBlkSz_pos
  constructor
  · intro bounded
    by_contra outside
    rw [not_or, not_or, Nat.not_lt, Nat.not_lt] at outside
    obtain ⟨within, asked, answers⟩ := outside
    have rows : startIdx * vol.iBlkSz + (endIdx + 1 - startIdx) * vol.iBlkSz = (endIdx + 1) * vol.iBlkSz := by
      rw [← Nat.add_mul, Nat.add_sub_cancel' (by omega)]
    have oneRow : 1 * vol.iBlkSz ≤ (endIdx + 1 - startIdx) * vol.iBlkSz := Nat.mul_le_mul_right _ (by omega)
    cases start : loopStart vol startIdx table r with
    | none => exact answers (.inl start)
    | some begun =>
      obtain ⟨short, none, ⟨_, _, part⟩ | ⟨empty, _, stops, which⟩⟩ := loopStart_spec start
      · omega
      by_cases last : begun.startIdx = endIdx + 1
      · have behind := bounded (endIdx + 1) ⟨within, .inr ⟨begun, start, .inl last.symm⟩⟩
        omega
      have whole : Whole vol endIdx r.len begun :=
        ⟨short, by rw [empty, none, Nat.zero_mul], by omega, by omega⟩
      have passed : ∀ g, Visits (mergePass vol table endIdx) begun g →
          ¬ (mergePass vol table endIdx g = .none ∨ ∃ h, mergePass vol table endIdx g =
              some (.leave (false, h))) :=
        fun g visits fails => answers (.inr ⟨begun, g, start, visits, fails⟩)
      obtain ⟨g, visits, read⟩ := whole.reads_behind unwrapped passed (.here begun)
      have behind := bounded (endIdx + 1) ⟨within, .inr ⟨begun, start, .inr ⟨g, visits, read⟩⟩⟩
      omega
  · rintro condition n ⟨within, rfl | ⟨begun, start, read⟩⟩
    · exact within
    obtain ⟨short, none, kind⟩ := loopStart_spec start
    rcases condition with empty | asked | fails
    · omega
    · have runs : Runs vol endIdx r.len (begun.stop vol) begun := by
        rcases kind with ⟨all, _⟩ | ⟨empty, _⟩
        · exact ⟨short, Nat.le_of_eq all, .inl none, .inr all, .inr rfl⟩
        · exact ⟨short, by omega, .inl none, .inl (by rw [empty, none, Nat.zero_mul]), .inr rfl⟩
      have rows : startIdx * vol.iBlkSz + (endIdx + 1 - startIdx) * vol.iBlkSz =
          (endIdx + 1) * vol.iBlkSz := by
        rw [← Nat.add_mul, Nat.add_sub_cancel' (by omega)]
      have ends : begun.stop vol < (endIdx + 1) * vol.iBlkSz := by
        rcases kind with ⟨_, same, _⟩ | ⟨_, _, stops, _⟩
        · unfold Merging.stop
          rw [same]
          omega
        · omega
      rcases read with rfl | ⟨g, visits, read⟩
      · have less : begun.startIdx < endIdx + 1 := by
          apply Nat.lt_of_mul_lt_mul_right (a := vol.iBlkSz)
          unfold Merging.stop at ends
          omega
        omega
      · exact (runs.visits unwrapped visits).bounded ends read
    · obtain ⟨first, fail, start', later, fails⟩ := fails.resolve_left (by rw [start]; nofun)
      rw [start] at start'
      cases start'
      by_contra beyond
      rcases read with rfl | ⟨g, visits, read⟩
      · have ended : mergePass vol table endIdx begun = some (.leave (true, begun)) := by
          unfold mergePass
          simp only
          rw [if_neg (by omega)]
        rcases later.first with rfl | ⟨t, again, _⟩
        · rw [ended] at fails
          rcases fails with fault | ⟨h, left⟩
          · cases fault
          · cases left
        · rw [ended] at again
          cases again
      · exact answered_behind visits read (by omega) later fails

def atByte (pos len : Nat) : Reading := ⟨flatFile (fun a => UInt8.ofNat (a / 1024)) 10240, [], len, pos⟩

def twoBlocks : Inode := inodeOf 12288 5 3 7 (by decide) (by decide)

theorem across_bounded : (atByte 1023 3).blk (flatVolume 20 0 (by decide)) = 0 ∧
    ∀ n, EntryRead (flatVolume 20 0 (by decide)) 0 (ext2NdirBlocks - 1) twoBlocks.iBlock (atByte 1023 3) n →
      n ≤ ext2NdirBlocks - 1 :=
  ⟨rfl, (@entries_bounded_iff (flatVolume 20 0 (by decide)) 0 (ext2NdirBlocks - 1) twoBlocks.iBlock
    (atByte 1023 3)
    (.inl (by decide))).mpr (.inr (.inl (by decide)))⟩

set_option maxRecDepth 4000 in
/-- Reading the last direct block, the code goes on to entry 12 of the direct ones. -/
theorem last_direct_overread : EntryRead (flatVolume 20 0 (by decide))
    ((atByte 11264 1024).blk (flatVolume 20 0 (by decide)))
    (ext2NdirBlocks - 1) twoBlocks.iBlock (atByte 11264 1024) 12 ∧ ext2NdirBlocks - 1 < 12 := by
  refine ⟨⟨by decide, .inr ⟨_, rfl, .inr ⟨_, .here _, ?_⟩⟩⟩, by decide⟩
  have behind : passEntries (flatVolume 20 0 (by decide)) twoBlocks.iBlock (ext2NdirBlocks - 1)
      ⟨atByte 11264 1024, 11, 0, 0, 7168⟩ = [12] := rfl
  exact behind ▸ List.mem_singleton_self 12

end Embryo.Fs
