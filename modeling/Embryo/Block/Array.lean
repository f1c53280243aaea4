import Embryo.Block.File

namespace Embryo.Block

open Embryo.Machine

variable {dev : BlockDevice} {disk : Memory} {pos nb : Nat}

theorem BlockDevice.blkSz_pos (dev : BlockDevice) : 0 < dev.blkSz := Nat.pow_pos (by decide)

theorem BlockDevice.blkSz_dvd (dev : BlockDevice) : dev.blkSz ∣ blkfileMaxIoBytes :=
  Nat.pow_dvd_pow 2 dev.small

def written (disk : Memory) (pos n : Nat) (data : Option (List UInt8)) : Memory :=
  match data with
  | none => disk
  | some data => write disk pos (data.take n)

def copied (disk : Memory) (pos n : Nat) (data : Option (List UInt8)) : List UInt8 :=
  match data with
  | none => bytes disk pos n
  | some _ => []

/-- The contents of the device and of the buffer once the transfer of `nb` bytes at `pos` has come
    to `x`: for a write, the part of `data` up to there has been stored, and nothing else. -/
structure Progress (dev : BlockDevice) (disk : Memory) (pos nb : Nat) (data : Option (List UInt8))
    (x : Xfer) : Prop where
  total : x.offs + x.resid = pos + nb
  ahead : pos ≤ x.offs
  inside : pos + nb ≤ dev.lba * dev.blkSz
  size : ∀ given ∈ data, given.length = nb
  device : x.disk = written disk pos (x.offs - pos) data
  buffer : x.buf = copied disk pos (x.offs - pos) data

variable {x : Xfer}

theorem Progress.read_on {n : Nat} (progress : Progress dev disk pos nb none x) (llbuf : Bool)
    (bound : n ≤ x.resid) :
    Progress dev disk pos nb none (x.advance n x.disk llbuf (bytes x.disk x.offs n)) := by
  have total := progress.total
  have ahead := progress.ahead
  have same : x.disk = disk := progress.device
  refine ⟨?_, Nat.le_add_right_of_le ahead, progress.inside, progress.size, same, ?_⟩
  · show x.offs + n + (x.resid - n) = pos + nb
    omega
  · show x.buf ++ bytes x.disk x.offs n = bytes disk pos (x.offs + n - pos)
    have sum : x.offs + n - pos = (x.offs - pos) + n := by omega
    have here : pos + (x.offs - pos) = x.offs := by omega
    rw [progress.buffer, copied, sum, bytes_add, here, same]

theorem Xfer.next_length {data : List UInt8} {n : Nat} (size : data.length = nb) (resid : x.resid ≤ nb)
    (bound : n ≤ x.resid) : (x.next data n).length = n := by
  simp only [Xfer.next, List.length_take, List.length_drop]
  omega

theorem Progress.write_on {data : List UInt8} {n : Nat} (progress : Progress dev disk pos nb (some data) x)
    (llbuf : Bool) (bound : n ≤ x.resid) :
    Progress dev disk pos nb (some data) (x.advance n (write x.disk x.offs (x.next data n)) llbuf []) := by
  have total := progress.total
  have ahead := progress.ahead
  have size : data.length = nb := progress.size data rfl
  refine ⟨?_, Nat.le_add_right_of_le ahead, progress.inside, progress.size, ?_, ?_⟩
  · show x.offs + n + (x.resid - n) = pos + nb
    omega
  · show write x.disk x.offs (x.next data n) = write disk pos (data.take (x.offs + n - pos))
    have sum : x.offs + n - pos = (x.offs - pos) + n := by omega
    have before : data.length - x.resid = x.offs - pos := by omega
    have done : (data.take (x.offs - pos)).length = x.offs - pos := by
      rw [List.length_take]
      omega
    have here : x.offs = pos + (data.take (x.offs - pos)).length := by omega
    have stored := write_append disk pos (data.take (x.offs - pos)) (x.next data n)
    rw [← here] at stored
    rw [progress.device, written, stored, Xfer.next, before, sum, ← List.take_add]
  · show x.buf ++ [] = []
    rw [progress.buffer, copied, List.append_nil]

theorem offs_split (dev : BlockDevice) (offs : Nat) :
    offs / dev.blkSz * dev.blkSz + offs % dev.blkSz = offs := Nat.div_add_mod' offs dev.blkSz

theorem xferPart_advances {data : Option (List UInt8)} (working : dev.Working)
    (progress : Progress dev disk pos nb data x) (more : x.resid ≠ 0) :
    ∃ y, xferPart dev true data x = .again y ∧ Progress dev disk pos nb data y ∧ y.resid < x.resid := by
  have total := progress.total
  have split := offs_split dev x.offs
  have less : x.offs % dev.blkSz < dev.blkSz := Nat.mod_lt _ dev.blkSz_pos
  have block : x.offs / dev.blkSz + 1 ≤ dev.lba := by
    have inside := progress.inside
    apply (Nat.div_lt_iff_lt_mul dev.blkSz_pos).mpr
    omega
  let n := min (dev.blkSz - x.offs % dev.blkSz) x.resid
  have bound : n ≤ x.resid := Nat.min_le_right _ _
  have within : x.offs % dev.blkSz + n ≤ dev.blkSz := by
    have := Nat.min_le_left (dev.blkSz - x.offs % dev.blkSz) x.resid
    omega
  have positive : 0 < n := Nat.lt_min.mpr ⟨by omega, by omega⟩
  have read := working.read x.disk (x.offs / dev.blkSz) 1 block
  rw [Nat.one_mul] at read
  cases data with
  | none =>
    have part : ((bytes x.disk (x.offs / dev.blkSz * dev.blkSz) dev.blkSz).drop (x.offs % dev.blkSz)).take n =
        bytes x.disk x.offs n := by
      rw [bytes_drop x.disk (by omega), bytes_take x.disk (by omega), split]
    refine ⟨x.advance n x.disk true (bytes x.disk x.offs n), ?_, progress.read_on true bound, ?_⟩
    · simp only [xferPart, not_true_eq_false, and_false, if_false, read]
      rw [part]
    · show x.resid - n < x.resid
      omega
  | some data =>
    have size : data.length = nb := progress.size data rfl
    have length : (x.next data n).length = n := Xfer.next_length size (by have := progress.ahead; omega) bound
    have filled : (splice (bytes x.disk (x.offs / dev.blkSz * dev.blkSz) dev.blkSz) (x.offs % dev.blkSz)
        (x.next data n)).length = 1 * dev.blkSz := by
      rw [splice_length (by rw [bytes_length, length]; exact within), bytes_length, Nat.one_mul]
    have wrote := working.write x.disk (x.offs / dev.blkSz) 1 _ block filled
    rw [write_splice x.disk (by rw [length]; exact within), split] at wrote
    refine ⟨x.advance n (write x.disk x.offs (x.next data n)) true [], ?_, progress.write_on true bound, ?_⟩
    · simp only [xferPart, not_true_eq_false, and_false, if_false, read]
      rw [wrote]
    · show x.resid - n < x.resid
      omega

theorem xferWhole_advances {data : Option (List UInt8)} (working : dev.Working)
    (progress : Progress dev disk pos nb data x)
    (aligned : x.offs % dev.blkSz = 0) (whole : dev.blkSz ≤ x.resid) :
    ∃ y, xferWhole dev data x = .again y ∧ Progress dev disk pos nb data y ∧ y.resid < x.resid := by
  have total := progress.total
  have inside := progress.inside
  have positive := dev.blkSz_pos
  have start : x.offs / dev.blkSz * dev.blkSz = x.offs := by
    have split := offs_split dev x.offs
    omega
  let n := min (x.resid / dev.blkSz * dev.blkSz) blkfileMaxIoBytes
  have blocks : n / dev.blkSz * dev.blkSz = n := by
    apply Nat.div_mul_cancel
    rcases Nat.le_total (x.resid / dev.blkSz * dev.blkSz) blkfileMaxIoBytes with le | le
    · rw [show n = _ from Nat.min_eq_left le]
      exact Nat.dvd_mul_left _ _
    · rw [show n = _ from Nat.min_eq_right le]
      exact dev.blkSz_dvd
  have bound : n ≤ x.resid := (Nat.min_le_left _ _).trans (Nat.div_mul_le_self _ _)
  have some : 0 < n := by
    apply Nat.lt_min.mpr
    constructor
    · exact Nat.mul_pos (Nat.div_pos whole positive) positive
    · exact Nat.pos_of_dvd_of_pos dev.blkSz_dvd (by decide) |>.trans_le
        (Nat.le_of_dvd (by decide) dev.blkSz_dvd)
  have within : x.offs / dev.blkSz + n / dev.blkSz ≤ dev.lba := by
    apply Nat.le_of_mul_le_mul_right _ positive
    rw [Nat.add_mul, start, blocks]
    omega
  cases data with
  | none =>
    have read := working.read x.disk _ _ within
    rw [start, blocks] at read
    refine ⟨x.advance n x.disk x.llbuf (bytes x.disk x.offs n), ?_, progress.read_on x.llbuf bound, ?_⟩
    · simp only [xferWhole]
      rw [read]
    · show x.resid - n < x.resid
      omega
  | some data =>
    have size : data.length = nb := progress.size data rfl
    have length : (x.next data n).length = n := Xfer.next_length size (by have := progress.ahead; omega) bound
    have wrote := working.write x.disk _ _ (x.next data n) within (length.trans blocks.symm)
    rw [start] at wrote
    refine ⟨x.advance n (write x.disk x.offs (x.next data n)) x.llbuf [], ?_,
      progress.write_on x.llbuf bound, ?_⟩
    · simp only [xferWhole]
      rw [wrote]
    · show x.resid - n < x.resid
      omega

theorem blkfileXfer_moves {bf : BlockFile} {data : Option (List UInt8)} (working : dev.Working)
    (size : ∀ given ∈ data, given.length = nb) (inside : bf.bfOffs.toNat + nb ≤ dev.lba * dev.blkSz) :
    blkfileXfer dev true bf nb data = some (some nb, copied bf.disk bf.bfOffs.toNat nb data,
      { bf with
        bfOffs := (bf.bfOffs.toNat + nb : Nat), disk := written bf.disk bf.bfOffs.toNat nb data }) := by
  have start : Progress dev bf.disk bf.bfOffs.toNat nb data ⟨bf.bfOffs.toNat, nb, bf.disk, false, []⟩ := by
    refine ⟨rfl, Nat.le_refl _, inside, size, ?_, ?_⟩
    · cases data with
      | none => rfl
      | some data => simp only [Nat.sub_self, written, List.take_zero, write_nil]
    · cases data <;> simp [copied, bytes]
  obtain ⟨⟨ok, x⟩, left, done, progress, empty⟩ := @loop_variant _ _ (xferPass dev true data)
    (Progress dev bf.disk bf.bfOffs.toNat nb data) Xfer.resid
    (fun result => result.1 = true ∧ Progress dev bf.disk bf.bfOffs.toNat nb data result.2 ∧
      result.2.resid = 0)
    (by
      intro x progress
      unfold xferPass
      by_cases done : x.resid = 0
      · rw [if_pos done]
        exact .inr ⟨_, rfl, rfl, progress, done⟩
      rw [if_neg done]
      left
      by_cases part : x.offs % dev.blkSz ≠ 0 ∨ x.resid < dev.blkSz
      · rw [if_pos part]
        obtain ⟨y, again, kept, less⟩ := xferPart_advances working progress done
        exact ⟨y, congrArg Option.some again, kept, less⟩
      · rw [if_neg part]
        obtain ⟨y, again, kept, less⟩ := xferWhole_advances working progress (by omega) (by omega)
        exact ⟨y, congrArg Option.some again, kept, less⟩)
    (nb + 1) _ start (Nat.lt_succ_self nb)
  change Progress dev bf.disk bf.bfOffs.toNat nb data x at progress
  change x.resid = 0 at empty
  have total := progress.total
  have offs : x.offs = bf.bfOffs.toNat + nb := by omega
  have moved : x.offs - bf.bfOffs.toNat = nb := by omega
  have device := progress.device
  have buffer := progress.buffer
  rw [moved] at device buffer
  simp only at done
  simp only [blkfileXfer, left, done, if_true, empty, Nat.sub_zero, device, buffer, offs]

structure ByteFile where
  content : Memory
  size : Int
  pos : Nat

inductive Op where
  | lseek (offs : BitVec 64) (whence : Whence)
  | read (len : BitVec 32)
  | write (data : List UInt8) (fits : data.length < 2^32)

abbrev Answer := Option Int × List UInt8

namespace ByteFile

def opened (dev : BlockDevice) (disk : Memory) : ByteFile := ⟨disk, loff (dev.lba * dev.blkSz), 0⟩

def clipped (file : ByteFile) (len : Nat) : Nat := min len (file.size - file.pos).toNat

def target (file : ByteFile) (offs : Int) (whence : Whence) : Option Int :=
  match whence with
  | .cur => some (file.pos + offs)
  | .set => some offs
  | .stop => none

def step (file : ByteFile) : Op → Answer × ByteFile
  | .lseek offs whence =>
    match file.target offs.toInt whence with
    | none => ((none, []), file)
    | some noff =>
      if 0 ≤ noff ∧ noff ≤ file.size then ((some noff, []), { file with pos := noff.toNat })
        else ((none, []), file)
  | .read len =>
    let n := file.clipped len.toNat
    ((some n, bytes file.content file.pos n), { file with pos := file.pos + n })
  | .write data _ =>
    let n := file.clipped data.length
    ((some n, []), { file with content := write file.content file.pos (data.take n), pos := file.pos + n })

def run (file : ByteFile) : List Op → List Answer × ByteFile
  | [] => ([], file)
  | op :: ops =>
    let (answer, file) := file.step op
    let (answers, file) := file.run ops
    (answer :: answers, file)

end ByteFile

structure Call where
  op : Op
  alloc : Bool

namespace BlockFile

def step (dev : BlockDevice) (bf : BlockFile) (call : Call) : Option (Answer × BlockFile) :=
  match call.op with
  | .lseek offs whence =>
    let (noff, bf) := blkfileLseek bf offs.toInt whence
    some ((noff, []), bf)
  | .read len => (blkfileRead dev call.alloc bf len.toNat).map (fun r => ((r.1.map Int.ofNat, r.2.1), r.2.2))
  | .write data _ => (blkfileWrite dev call.alloc bf data).map (fun r => ((r.1.map Int.ofNat, r.2.1), r.2.2))

def run (dev : BlockDevice) (bf : BlockFile) : List Call → Option (List Answer × BlockFile)
  | [] => some ([], bf)
  | call :: calls =>
    match bf.step dev call with
    | none => none
    | some (answer, bf) =>
      match bf.run dev calls with
      | none => none
      | some (answers, bf) => some (answer :: answers, bf)

end BlockFile

structure Refines (dev : BlockDevice) (bf : BlockFile) (file : ByteFile) : Prop where
  oflags : bf.oflags = .rdwr
  disk : bf.disk = file.content
  offs : bf.bfOffs = file.pos
  stop : bf.bfEnd = file.size
  base : bf.bfBase = 0
  placed : file.pos = 0 ∨ (file.pos : Int) ≤ file.size
  short : file.size < 2^63
  inside : file.size ≤ dev.lba * dev.blkSz

variable {bf : BlockFile} {file : ByteFile}

theorem loff_of_lt {x : Int} (low : -2^63 ≤ x) (high : x < 2^63) : loff x = x := by
  rw [loff, BitVec.toInt_ofInt]
  apply Int.bmod_eq_of_le <;> simp only [Nat.reducePow, Nat.cast_ofNat] <;> omega

theorem loff_overflow {x : Int} (low : 2^63 ≤ x) (high : x < 2^64) : loff x < 0 := by
  rw [loff, BitVec.toInt_ofInt, Int.bmod_def]
  simp only [Nat.reducePow, Nat.cast_ofNat, Int.reducePow] at *
  split <;> omega

theorem loff_le (x : Nat) : loff x ≤ x := by
  rw [loff, BitVec.toInt_ofInt, Int.bmod_def]
  simp only [Nat.reducePow, Nat.cast_ofNat]
  split <;> omega

theorem loff_lt (x : Int) : loff x < 2^63 := by
  have := BitVec.toInt_lt (x := BitVec.ofInt 64 x)
  simpa [loff] using this

theorem open_refines (dev : BlockDevice) (disk : Memory) :
    Refines dev (blkfileOpen dev disk .rdwr) (ByteFile.opened dev disk) where
  oflags := rfl
  disk := rfl
  offs := rfl
  stop := rfl
  base := rfl
  placed := .inl rfl
  short := loff_lt _
  inside := by
    have le := loff_le (dev.lba * dev.blkSz)
    push_cast at le
    exact le

theorem Refines.lseek (refines : Refines dev bf file) (offs : BitVec 64) (whence : Whence) (alloc : Bool) :
    ∃ bf', bf.step dev ⟨.lseek offs whence, alloc⟩ = some ((file.step (.lseek offs whence)).1, bf') ∧
      Refines dev bf' (file.step (.lseek offs whence)).2 := by
  have low := BitVec.le_toInt (x := offs)
  have high := BitVec.toInt_lt (x := offs)
  have place := refines.offs
  have short := refines.short
  have within : (file.pos : Int) < 2^63 := by
    rcases refines.placed with zero | le
    · omega
    · omega
  -- a sum that overflows is as far out as its true value
  have sought : ∀ noff, bf.sought offs.toInt whence = some noff →
    ∃ goal, file.target offs.toInt whence = some goal ∧
      ((noff < bf.bfBase ∨ noff > bf.bfEnd) ↔ ¬ (0 ≤ goal ∧ goal ≤ file.size)) ∧
          (0 ≤ goal → goal ≤ file.size → noff = goal) := by
    intro noff asked
    rw [refines.base, refines.stop]
    cases whence with
    | set =>
      simp only [BlockFile.sought, Option.some.injEq] at asked
      refine ⟨offs.toInt, rfl, ?_, fun _ _ => asked.symm⟩
      omega
    | cur =>
      simp only [BlockFile.sought, Option.some.injEq] at asked
      refine ⟨file.pos + offs.toInt, rfl, ?_, ?_⟩
      · rw [place] at asked
        by_cases beyond : 2^63 ≤ (file.pos : Int) + offs.toInt
        · have negative := loff_overflow beyond (by omega)
          omega
        · rw [loff_of_lt (by omega) (by omega)] at asked
          omega
      · intro nonneg le
        rw [← asked, place, loff_of_lt (by omega) (by omega)]
    | stop => cases asked
  have unsought : bf.sought offs.toInt whence = none → file.target offs.toInt whence = none := by
    cases whence <;> simp [BlockFile.sought, ByteFile.target]
  simp only [BlockFile.step, blkfileLseek, ByteFile.step]
  cases asked : bf.sought offs.toInt whence with
  | none =>
    rw [unsought asked]
    exact ⟨bf, rfl, refines⟩
  | some noff =>
    obtain ⟨goal, target, rejected, same⟩ := sought noff asked
    rw [target]
    dsimp only
    by_cases accepted : 0 ≤ goal ∧ goal ≤ file.size
    · rw [if_neg (by rw [rejected]; exact not_not.mpr accepted), if_pos accepted]
      have equal := same accepted.1 accepted.2
      refine ⟨{ bf with bfOffs := noff }, ?_, { refines with offs := ?_, placed := .inr ?_ }⟩
      · simp only [refines.base, Int.sub_zero, equal]
      · show noff = (goal.toNat : Int)
        omega
      · show (goal.toNat : Int) ≤ file.size
        omega
    · rw [if_pos (rejected.mpr accepted), if_neg accepted]
      exact ⟨bf, rfl, refines⟩

theorem Refines.clipped (refines : Refines dev bf file) (len : Nat)
    (valid : ¬ (bf.bfOffs < 0 ∨ bf.bfOffs > bf.bfEnd)) :
    bf.clipped len = file.clipped len := by
  have offs := refines.offs
  have stop := refines.stop
  simp only [BlockFile.clipped, ByteFile.clipped, offs, stop] at *
  split <;> omega

theorem Refines.clipped_inside (refines : Refines dev bf file) (len : Nat) :
    file.pos + file.clipped len ≤ dev.lba * dev.blkSz ∨ file.clipped len = 0 := by
  have inside := refines.inside
  simp only [ByteFile.clipped]
  omega

theorem Refines.outside (refines : Refines dev bf file) (len : Nat)
    (invalid : bf.bfOffs < 0 ∨ bf.bfOffs > bf.bfEnd) :
    file.clipped len = 0 := by
  have offs := refines.offs
  have stop := refines.stop
  simp only [ByteFile.clipped]
  omega

theorem Refines.moved (refines : Refines dev bf file) (len : Nat) (content : Memory) :
    Refines dev { bf with bfOffs := (file.pos + file.clipped len : Nat), disk := content }
      { file with content, pos := file.pos + file.clipped len } := by
  refine { refines with disk := rfl, offs := rfl, placed := ?_ }
  have placed := refines.placed
  simp only [ByteFile.clipped]
  omega

theorem Refines.read (refines : Refines dev bf file) (working : dev.Working) (len : BitVec 32) :
    ∃ bf', bf.step dev ⟨.read len, true⟩ = some ((file.step (.read len)).1, bf') ∧
      Refines dev bf' (file.step (.read len)).2 := by
  have writable : ¬ bf.oflags = .wronly := by rw [refines.oflags]; decide
  have place : bf.bfOffs.toNat = file.pos := by rw [refines.offs, Int.toNat_natCast]
  simp only [BlockFile.step, blkfileRead, ByteFile.step]
  rw [if_neg writable]
  by_cases invalid : bf.bfOffs < 0 ∨ bf.bfOffs > bf.bfEnd
  · have none := refines.outside len.toNat invalid
    rw [if_pos invalid, none]
    exact ⟨bf, rfl, refines⟩
  · have fits : bf.bfOffs.toNat + file.clipped len.toNat ≤ dev.lba * dev.blkSz := by
      rcases refines.clipped_inside len.toNat with inside | zero
      · omega
      · have inside := refines.inside
        have stop := refines.stop
        have offs := refines.offs
        omega
    rw [if_neg invalid, refines.clipped len.toNat invalid,
      @blkfileXfer_moves dev (file.clipped len.toNat) bf none working nofun fits, place,
      refines.disk]
    exact ⟨_, rfl, refines.moved len.toNat file.content⟩

theorem Refines.write (refines : Refines dev bf file) (working : dev.Working) (data : List UInt8)
    (size : data.length < 2^32) :
    ∃ bf', bf.step dev ⟨.write data size, true⟩ = some ((file.step (.write data size)).1, bf') ∧
      Refines dev bf' (file.step (.write data size)).2 := by
  have writable : ¬ bf.oflags = .rdonly := by rw [refines.oflags]; decide
  have place : bf.bfOffs.toNat = file.pos := by rw [refines.offs, Int.toNat_natCast]
  simp only [BlockFile.step, blkfileWrite, ByteFile.step]
  rw [if_neg writable]
  by_cases invalid : bf.bfOffs < 0 ∨ bf.bfOffs > bf.bfEnd
  · have none := refines.outside data.length invalid
    rw [if_pos invalid, none, List.take_zero, write_nil]
    exact ⟨bf, rfl, refines⟩
  · have fits : bf.bfOffs.toNat + file.clipped data.length ≤ dev.lba * dev.blkSz := by
      rcases refines.clipped_inside data.length with inside | zero
      · omega
      · have inside := refines.inside
        have stop := refines.stop
        have offs := refines.offs
        omega
    have given : ∀ given ∈ some (data.take (file.clipped data.length)), given.length =
        file.clipped data.length := by
      intro given isData
      rw [← Option.some.inj isData, List.length_take]
      exact Nat.min_eq_left (Nat.min_le_left _ _)
    rw [if_neg invalid, refines.clipped data.length invalid, blkfileXfer_moves working given fits,
      place, refines.disk]
    have whole : Block.written file.content file.pos (file.clipped data.length)
        (some (data.take (file.clipped data.length))) =
        Machine.write file.content file.pos (data.take (file.clipped data.length)) := by
      rw [Block.written, List.take_take, Nat.min_self]
    rw [whole]
    exact ⟨_, rfl, refines.moved data.length _⟩

theorem Refines.step (refines : Refines dev bf file) (working : dev.Working) (op : Op) :
    ∃ bf', bf.step dev ⟨op, true⟩ = some ((file.step op).1, bf') ∧ Refines dev bf' (file.step op).2 := by
  cases op with
  | lseek offs whence => exact refines.lseek offs whence true
  | read len => exact refines.read working len
  | write data size => exact refines.write working data size

/-- Every run of calls on an opened block file gives the answers of the array and leaves the device
    with its contents. -/
theorem blkfile_refines_array (dev : BlockDevice) (working : dev.Working) (disk : Memory) (calls : List Call)
    (memory : ∀ call ∈ calls, call.alloc = true) :
    ∃ bf, (blkfileOpen dev disk .rdwr).run dev calls =
        some (((ByteFile.opened dev disk).run (calls.map Call.op)).1, bf) ∧
      Refines dev bf ((ByteFile.opened dev disk).run (calls.map Call.op)).2 := by
  have runs : ∀ (calls : List Call) (bf : BlockFile) (file : ByteFile), (∀ call ∈ calls, call.alloc = true) →
      Refines dev bf file → ∃ bf', bf.run dev calls = some ((file.run (calls.map Call.op)).1, bf') ∧
        Refines dev bf' (file.run (calls.map Call.op)).2 := by
    intro calls
    induction calls with
    | nil =>
      intro bf file _ refines
      exact ⟨bf, rfl, refines⟩
    | cons call calls ih =>
      intro bf file memory refines
      have here : call = ⟨call.op, true⟩ := by
        rw [← memory call List.mem_cons_self]
      obtain ⟨next, stepped, kept⟩ := refines.step working call.op
      obtain ⟨last, ran, final⟩ := ih next _ (fun call member =>
        memory call (List.mem_cons_of_mem _ member)) kept
      refine ⟨last, ?_, final⟩
      rw [BlockFile.run, here, stepped]
      simp only
      rw [ran]
      rfl
  exact runs calls _ _ memory (open_refines dev disk)

def ramDisk : BlockDevice where
  blkSzLog2 := 1
  small := by decide
  lba := 4
  boRead := fun disk blkno cnt => some (bytes disk (blkno * 2) (cnt * 2))
  boWrite := fun disk blkno _ data => (true, write disk (blkno * 2) data)

theorem ramDisk_working : ramDisk.Working := ⟨fun _ _ _ _ => rfl, fun _ _ _ _ _ _ => rfl⟩

theorem ramDisk_written_and_read : ∃ bf, (blkfileOpen ramDisk (fun _ => 0) .rdwr).run ramDisk
    [⟨.lseek 3 .set, true⟩, ⟨.write [1, 2, 3, 4] (by decide), true⟩, ⟨.lseek 4 .set, true⟩, ⟨.read 100, true⟩,
      ⟨.lseek (-1) .set, true⟩] =
    some ([(some 3, []), (some 4, []), (some 4, []), (some 4, [2, 3, 4, 0]), (none, [])], bf) := by
  obtain ⟨bf, ran, _⟩ := blkfile_refines_array ramDisk ramDisk_working (fun _ => 0)
    [⟨.lseek 3 .set, true⟩, ⟨.write [1, 2, 3, 4] (by decide), true⟩, ⟨.lseek 4 .set, true⟩, ⟨.read 100, true⟩,
      ⟨.lseek (-1) .set, true⟩] (by decide)
  exact ⟨bf, ran.trans (by rfl)⟩

/-- Without a buffer for a part of a block the call returns -1. -/
theorem unbuffered_read_fails : ramDisk.Working ∧ ∃ bf, (blkfileOpen ramDisk (fun _ => 0) .rdwr).run ramDisk
    [⟨.read 1, false⟩] = some ([(none, [])], bf) ∧
    ((ByteFile.opened ramDisk (fun _ => 0)).run [.read 1]).1 = [(some 1, [0])] :=
  ⟨ramDisk_working, _, rfl, rfl⟩

end Embryo.Block
