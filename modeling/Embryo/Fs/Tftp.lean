import Embryo.Machine.Endian
import Embryo.Machine.Loop

namespace Embryo.Fs.Tftp

open Embryo.Machine

def eperm : Nat := 1
def enoent : Nat := 2
def eio : Nat := 5
def eacces : Nat := 13
def eexist : Nat := 17
def einval : Nat := 22
def enospc : Nat := 28

def tftperrmap : List Nat := [eio, enoent, eacces, enospc, eio, einval, eexist, eacces]

def tftpblksize : Nat := 512
def tftpmaxsize : Nat := 4 + tftpblksize
def tftpminsize : Nat := 4

def tftpOpcodeData : UInt16 := 3
def tftpOpcodeAck : UInt16 := 4
def tftpOpcodeErr : UInt16 := 5

def minusOne : UInt32 := 0xffffffff

inductive AccMode where
  | rdonly
  | wronly
  | rdwr
deriving DecidableEq, Repr

structure TftpFile where
  sinPort : UInt16
  block : UInt32
  start : UInt32
  stop : UInt32
  foffs : UInt32
  accMode : AccMode
  eof : Bool
  buf : Memory

/-- What `recvfrom` gives: the port of the sender, and as much of the datagram as has room in the buffer. -/
structure Datagram where
  port : UInt16
  data : List UInt8
  fits : data.length ≤ tftpmaxsize

/-- What the network does in one pass of a request: whether all of the packet is sent, and what
    `recvfrom` returns. -/
structure Turn where
  sent : Bool
  reply : Option Datagram

def opcode (buf : Memory) : UInt16 := ntohs (get16 buf 0)
def blk (buf : Memory) : UInt16 := ntohs (get16 buf 2)

/-- How a request ends: its result, with what `tftperrmap` was indexed, what `errno` became, where
    it was set, and how often the packet has been sent. -/
structure Answer where
  size : Int
  index : Option Nat
  errno : Option Nat
  sends : Nat
  tf : TftpFile
  turns : List Turn

/-- `tftprrq`, where the packet has been sent `sends` times. There is no answer while the network has none. -/
def tftprrq (tf : TftpFile) (sends : Nat) : List Turn → Option Answer
  | [] => none
  | turn :: turns =>
    if ¬ turn.sent then some ⟨-1, none, none, sends, tf, turns⟩
    else if tf.eof then some ⟨0, none, none, sends + 1, tf, turns⟩
    else
      match turn.reply with
      | none => tftprrq tf (sends + 1) turns
      | some from_ =>
        let tf := { tf with buf := write tf.buf 0 from_.data }
        if from_.data.length < tftpminsize then tftprrq tf (sends + 1) turns
        else
          let tf := { tf with sinPort := if tf.block ≤ 1 then from_.port else tf.sinPort }
          if tf.sinPort ≠ from_.port then tftprrq tf (sends + 1) turns
          else if opcode tf.buf = tftpOpcodeErr then
            let code := (blk tf.buf).toNat
            some ⟨-1, some code, tftperrmap[code]?, sends + 1, tf, turns⟩
          else if opcode tf.buf = tftpOpcodeData then
            if (blk tf.buf).toUInt32 = tf.block then
              let size := from_.data.length - tftpminsize
              some ⟨size, none, none, sends + 1, { tf with eof := tf.eof || size < tftpblksize }, turns⟩
            else if (blk tf.buf).toUInt32 ≠ tf.block - 1 then some ⟨-1, none, some eio, sends + 1, tf, turns⟩
            else tftprrq tf (sends + 1) turns
          else tftprrq tf (sends + 1) turns

/-- `tftpwrq`; the answers come into a buffer of its own. -/
def tftpwrq (tf : TftpFile) (ackbuf : Memory) (pktsize sends : Nat) : List Turn → Option Answer
  | [] => none
  | turn :: turns =>
    if ¬ turn.sent then some ⟨-1, none, none, sends, tf, turns⟩
    else
      match turn.reply with
      | none => tftpwrq tf ackbuf pktsize (sends + 1) turns
      | some from_ =>
        let ackbuf := write ackbuf 0 from_.data
        if from_.data.length < tftpminsize then tftpwrq tf ackbuf pktsize (sends + 1) turns
        else
          let tf := { tf with sinPort := if tf.block = 0 then from_.port else tf.sinPort }
          if tf.sinPort ≠ from_.port then tftpwrq tf ackbuf pktsize (sends + 1) turns
          else if opcode ackbuf = tftpOpcodeErr then
            let code := (blk ackbuf).toNat
            some ⟨-1, some code, tftperrmap[code]?, sends + 1, tf, turns⟩
          else if opcode ackbuf = tftpOpcodeAck then
            if (blk ackbuf).toUInt32 = tf.block then some ⟨pktsize - tftpminsize, none, none,
              sends + 1, tf, turns⟩
            else if (blk ackbuf).toUInt32 ≠ tf.block - 1 then some ⟨-1, none, some eio, sends + 1, tf, turns⟩
            else tftpwrq tf ackbuf pktsize (sends + 1) turns
          else tftpwrq tf ackbuf pktsize (sends + 1) turns

/-- A request that has failed: the window and the position before it, and with what `tftperrmap` was
    indexed. -/
structure Failure where
  start : UInt32
  stop : UInt32
  foffs : UInt32
  index : Option Nat
deriving DecidableEq, Repr

def failuresOf (tf : TftpFile) (a : Answer) : List Failure :=
  if a.size < 0 then [⟨tf.start, tf.stop, tf.foffs, a.index⟩] else []

/-- The variables of the loops of `tftp_read` and `tftp_write`: `data` has been read, or is still to
    be written, and `sent` are the DATA packets that have gone out. -/
structure Transfer where
  tf : TftpFile
  nb : UInt32
  data : List UInt8
  failures : List Failure
  sent : List (List UInt8)
  turns : List Turn

def Transfer.copied (s : Transfer) : Transfer :=
  if s.tf.start ≤ s.tf.foffs ∧ s.tf.foffs < s.tf.stop then
    let n := min (s.tf.stop - s.tf.foffs) s.nb
    { s with
      tf := { s.tf with foffs := s.tf.foffs + n }
      nb := s.nb - n
      data := s.data ++ bytes s.tf.buf (tftpminsize + (s.tf.foffs - s.tf.start).toNat) n.toNat }
  else s

/-- The loop of `tftp_read`. The variable `n` is unsigned, so the test for a result below zero is
    never true. -/
def readPass (s : Transfer) : Option (Pass Transfer Transfer) :=
  if s.nb ≠ 0 ∧ s.tf.start < s.tf.stop then
    let s := s.copied
    if s.tf.stop ≤ s.tf.foffs then
      match tftprrq { s.tf with block := s.tf.block + 1 } 0 s.turns with
      | none => none
      | some a =>
        let n := UInt32.ofInt a.size
        some (.again { s with
          tf := { a.tf with start := a.tf.stop, stop := a.tf.stop + n }
          failures := s.failures ++ failuresOf s.tf a
          turns := a.turns })
    else some (.again s)
  else some (.leave s)

structure Result where
  ret : UInt32
  data : List UInt8
  tf : TftpFile
  failures : List Failure
  sent : List (List UInt8)
  turns : List Turn

def tftpRead (tf : TftpFile) (len : UInt32) (turns : List Turn) : Option Result :=
  if tf.accMode ≠ .rdonly then some ⟨minusOne, [], tf, [], [], turns⟩
  else
    match loop readPass (len.toNat + turns.length + 2) ⟨tf, len, [], [], [], turns⟩ with
    | none => none
    | some s => some ⟨len - s.nb, s.data, s.tf, s.failures, s.sent, s.turns⟩

/-- The loop of `tftp_write`, where `n` is unsigned too. -/
def writePass (stack : Memory) (s : Transfer) : Option (Pass Transfer Transfer) :=
  if s.nb ≠ 0 then
    let n := min (UInt32.ofNat tftpblksize - s.tf.stop) s.nb
    let tf := { s.tf with
      buf := write s.tf.buf (tftpminsize + s.tf.stop.toNat) (s.data.take n.toNat)
      foffs := s.tf.foffs + n
      stop := s.tf.stop + n }
    let s := { s with tf, nb := s.nb - n, data := s.data.drop n.toNat }
    if s.tf.stop = UInt32.ofNat tftpblksize then
      let block : UInt32 := s.tf.block + 1
      let tf := { s.tf with block, buf := write s.tf.buf 2 (bytes16 (htons (UInt16.ofNat block.toNat))) }
      match tftpwrq tf stack tftpmaxsize 0 s.turns with
      | none => none
      | some a =>
        some (.again { s with
          tf := { a.tf with stop := 0 }
          failures := s.failures ++ failuresOf s.tf a
          sent := s.sent ++ List.replicate a.sends (bytes tf.buf 0 tftpmaxsize)
          turns := a.turns })
    else some (.again s)
  else some (.leave s)

def tftpWrite (stack : Memory) (tf : TftpFile) (len : UInt32) (data : List UInt8)
    (turns : List Turn) : Option Result :=
  let tf := { tf with buf := write tf.buf 0 (bytes16 (htons tftpOpcodeData)) }
  if tf.accMode ≠ .wronly then some ⟨minusOne, [], tf, [], [], turns⟩
  else
    match loop (writePass stack) (2 * len.toNat + 2) ⟨tf, len, data, [], [], turns⟩ with
    | none => none
    | some s => some ⟨len - s.nb, [], s.tf, s.failures, s.sent, s.turns⟩

def InMap (f : Failure) : Prop := ∀ i ∈ f.index, i < tftperrmap.length

/-- Every request of a read that has failed is reported: by -1, through `tftperrmap`, and with the
    window and the position as they were. -/
def ReadReported (r : Result) : Prop :=
  ∀ f ∈ r.failures, r.ret = minusOne ∧ InMap f ∧ r.tf.start = f.start ∧ r.tf.stop = f.stop ∧
    r.tf.foffs = f.foffs

def WriteReported (r : Result) : Prop := ∀ f ∈ r.failures, r.ret = minusOne ∧ InMap f

structure SameWindow (tf tf' : TftpFile) : Prop where
  start : tf'.start = tf.start
  stop : tf'.stop = tf.stop
  foffs : tf'.foffs = tf.foffs
  accMode : tf'.accMode = tf.accMode

theorem tftprrq_spec {tf : TftpFile} {sends : Nat} {turns : List Turn} {a : Answer}
    (answered : tftprrq tf sends turns = some a) :
    SameWindow tf a.tf ∧ (a.size < 0 → a.size = -1) := by
  induction turns generalizing tf sends with
  | nil => cases answered
  | cons turn turns ih =>
    unfold tftprrq at answered
    split at answered
    · cases answered
      exact ⟨⟨rfl, rfl, rfl, rfl⟩, fun _ => rfl⟩
    split at answered
    · cases answered
      exact ⟨⟨rfl, rfl, rfl, rfl⟩, fun negative => absurd negative (Int.lt_irrefl 0)⟩
    split at answered
    · exact ih answered
    next from_ _ =>
    have onward : ∀ {tf' : TftpFile}, tftprrq tf' (sends + 1) turns = some a →
      tf'.start = tf.start → tf'.stop = tf.stop →
        tf'.foffs = tf.foffs → tf'.accMode = tf.accMode → SameWindow tf a.tf ∧
            (a.size < 0 → a.size = -1) := by
      intro tf' call start stop foffs accMode
      obtain ⟨same, negative⟩ := ih call
      exact ⟨⟨same.start.trans start, same.stop.trans stop, same.foffs.trans foffs,
        same.accMode.trans accMode⟩, negative⟩
    dsimp only at answered
    generalize (if tf.block ≤ 1 then from_.port else tf.sinPort) = port at answered
    split at answered
    · exact onward answered rfl rfl rfl rfl
    split at answered
    · exact onward answered rfl rfl rfl rfl
    split at answered
    · cases answered
      exact ⟨⟨rfl, rfl, rfl, rfl⟩, fun _ => rfl⟩
    split at answered
    · split at answered
      · cases answered
        exact ⟨⟨rfl, rfl, rfl, rfl⟩, fun negative => absurd negative (by simp only; omega)⟩
      split at answered
      · cases answered
        exact ⟨⟨rfl, rfl, rfl, rfl⟩, fun _ => rfl⟩
      · exact onward answered rfl rfl rfl rfl
    · exact onward answered rfl rfl rfl rfl

theorem window_closed {start stop : UInt32} (some : start < stop) : ¬ stop < stop + UInt32.ofInt (-1) := by
  have less := UInt32.lt_iff_toNat_lt.mp some
  have bound := stop.toNat_lt
  have ones : (UInt32.ofInt (-1)).toNat = 2^32 - 1 := by decide
  rw [UInt32.lt_iff_toNat_lt, UInt32.toNat_add, ones]
  omega

/-- A failed request is the last one of a read, and leaves an empty window behind that it has had. -/
def Closed (failures : List Failure) (tf : TftpFile) : Prop :=
  failures = [] ∨ ∃ f, failures = [f] ∧ f.start < f.stop ∧ tf.start = f.stop ∧ ¬ tf.start < tf.stop

theorem copied_same (s : Transfer) :
    s.copied.tf.start = s.tf.start ∧ s.copied.tf.stop = s.tf.stop ∧ s.copied.failures = s.failures := by
  unfold Transfer.copied
  split <;> exact ⟨rfl, rfl, rfl⟩

theorem readPass_again {s next : Transfer} (passed : readPass s = some (.again next))
    (closed : Closed s.failures s.tf) :
    Closed next.failures next.tf := by
  obtain ⟨start, stop, failures⟩ := copied_same s
  unfold readPass at passed
  split at passed
  · next more =>
    have fresh : s.failures = [] := by
      rcases closed with none | ⟨f, _, _, _, empty⟩
      · exact none
      · exact absurd more.2 empty
    simp only at passed
    split at passed
    · split at passed
      · cases passed
      · next a answered =>
        cases passed
        obtain ⟨same, negative⟩ := tftprrq_spec answered
        have stops : a.tf.stop = s.tf.stop := same.stop.trans stop
        simp only [failures, fresh, List.nil_append, failuresOf]
        split
        · next fails =>
          refine .inr ⟨_, rfl, ?_, ?_, ?_⟩
          · show s.copied.tf.start < s.copied.tf.stop
            rw [start, stop]
            exact more.2
          · show a.tf.stop = s.copied.tf.stop
            rw [stops, stop]
          · show ¬ a.tf.stop < a.tf.stop + UInt32.ofInt a.size
            rw [negative fails, stops]
            exact window_closed more.2
        · exact .inl rfl
    · cases passed
      exact .inl (failures.trans fresh)
  · cases passed

theorem readPass_leave {s result : Transfer} (passed : readPass s = some (.leave result)) : result = s := by
  unfold readPass at passed
  split at passed
  · simp only at passed
    split at passed
    · split at passed <;> cases passed
    · cases passed
  · cases passed
    rfl

theorem tftpRead_closed {tf : TftpFile} {len : UInt32} {turns : List Turn} {r : Result}
    (call : tftpRead tf len turns = some r) :
    Closed r.failures r.tf := by
  unfold tftpRead at call
  split at call
  · cases call
    exact .inl rfl
  · split at call
    · cases call
    · next s left =>
      cases call
      exact loop_invariant (fun s => Closed s.failures s.tf) (fun s => Closed s.failures s.tf)
        (fun _ _ passed kept => readPass_again passed kept) (fun _ _ passed kept =>
          readPass_leave passed ▸ kept) left (.inl rfl)

theorem writePass_leave {stack : Memory} {s result : Transfer}
    (passed : writePass stack s = some (.leave result)) :
    result.nb = 0 := by
  unfold writePass at passed
  split at passed
  · simp only at passed
    split at passed
    · split at passed <;> cases passed
    · cases passed
  · next done =>
    cases passed
    exact not_not.mp done

theorem tftprrq_turns {tf : TftpFile} {sends : Nat} {turns : List Turn} {a : Answer}
    (answered : tftprrq tf sends turns = some a) :
    a.turns.length < turns.length := by
  induction turns generalizing tf sends with
  | nil => cases answered
  | cons turn turns ih =>
    rw [List.length_cons]
    unfold tftprrq at answered
    split at answered
    · cases answered
      exact Nat.lt_succ_self _
    split at answered
    · cases answered
      exact Nat.lt_succ_self _
    split at answered
    · exact Nat.lt_succ_of_lt (ih answered)
    next from_ _ =>
    dsimp only at answered
    generalize (if tf.block ≤ 1 then from_.port else tf.sinPort) = port at answered
    split at answered
    · exact Nat.lt_succ_of_lt (ih answered)
    split at answered
    · exact Nat.lt_succ_of_lt (ih answered)
    split at answered
    · cases answered
      exact Nat.lt_succ_self _
    split at answered
    · split at answered
      · cases answered
        exact Nat.lt_succ_self _
      split at answered
      · cases answered
        exact Nat.lt_succ_self _
      · exact Nat.lt_succ_of_lt (ih answered)
    · exact Nat.lt_succ_of_lt (ih answered)

theorem min_word {a b : UInt32} : (min a b).toNat = min a.toNat b.toNat := by
  show (if a ≤ b then a else b).toNat = _
  split
  · next less =>
    have := UInt32.le_iff_toNat_le.mp less
    omega
  · next more =>
    rw [UInt32.le_iff_toNat_le] at more
    omega

theorem word_sub {a b : UInt32} (less : b.toNat ≤ a.toNat) : (a - b).toNat = a.toNat - b.toNat :=
  UInt32.toNat_sub_of_le _ _ (UInt32.le_iff_toNat_le.mpr less)

theorem copied_less {s : Transfer} (more : s.nb ≠ 0 ∧ s.tf.start < s.tf.stop)
    (inside : s.tf.start ≤ s.tf.foffs) :
    s.copied.turns = s.turns ∧ s.tf.start ≤ s.copied.tf.foffs ∧ s.copied.nb.toNat ≤ s.nb.toNat ∧
      (s.tf.foffs < s.tf.stop → s.copied.nb.toNat < s.nb.toNat) := by
  unfold Transfer.copied
  by_cases window : s.tf.start ≤ s.tf.foffs ∧ s.tf.foffs < s.tf.stop
  · rw [if_pos window]
    have low := UInt32.le_iff_toNat_le.mp window.1
    have high := UInt32.lt_iff_toNat_lt.mp window.2
    have bound := s.tf.stop.toNat_lt
    have positive : s.nb.toNat ≠ 0 := fun zero => more.1 (UInt32.toNat_inj.mp zero)
    have n := @min_word (s.tf.stop - s.tf.foffs) s.nb
    rw [word_sub (by omega)] at n
    have nb : (s.nb - min (s.tf.stop - s.tf.foffs) s.nb).toNat =
        s.nb.toNat - min (s.tf.stop.toNat - s.tf.foffs.toNat) s.nb.toNat := by
      rw [word_sub (by omega), n]
    have foffs : (s.tf.foffs + min (s.tf.stop - s.tf.foffs) s.nb).toNat =
        s.tf.foffs.toNat + min (s.tf.stop.toNat - s.tf.foffs.toNat) s.nb.toNat := by
      rw [UInt32.toNat_add, n]
      omega
    refine ⟨rfl, ?_, ?_, fun _ => ?_⟩
    · rw [UInt32.le_iff_toNat_le, foffs]
      omega
    · show (s.nb - min (s.tf.stop - s.tf.foffs) s.nb).toNat ≤ s.nb.toNat
      omega
    · show (s.nb - min (s.tf.stop - s.tf.foffs) s.nb).toNat < s.nb.toNat
      omega
  · rw [if_neg window]
    exact ⟨rfl, inside, Nat.le_refl _, fun before => absurd ⟨inside, before⟩ window⟩

theorem tftpRead_enough {tf : TftpFile} {len : UInt32} {turns : List Turn} {fuel : Nat} {s : Transfer}
    (left : loop readPass fuel ⟨tf, len, [], [], [], turns⟩ = some s) :
    loop readPass (len.toNat + turns.length + 2) ⟨tf, len, [], [], [], turns⟩ = some s := by
  by_cases inside : tf.start ≤ tf.foffs
  · refine loop_within (fun s => s.tf.start ≤ s.tf.foffs) (fun s => s.nb.toNat + s.turns.length)
      ?_ left inside
      (show len.toNat + turns.length < len.toNat + turns.length + 2 by omega)
    intro s next inside passed
    unfold readPass at passed
    split at passed
    · next more =>
      obtain ⟨start, stop, _⟩ := copied_same s
      obtain ⟨sameTurns, low, fewer, less⟩ := copied_less more inside
      dsimp only at passed
      split at passed
      · next ended =>
        split at passed
        · cases passed
        · next a answered =>
          cases passed
          obtain ⟨same, _⟩ := tftprrq_spec answered
          have used := tftprrq_turns answered
          refine ⟨?_, ?_⟩
          · show a.tf.stop ≤ a.tf.foffs
            rw [same.stop, same.foffs]
            exact ended
          · show s.copied.nb.toNat + a.turns.length < s.nb.toNat + s.turns.length
            rw [sameTurns] at used
            omega
      · next ended =>
        cases passed
        have before : s.tf.foffs < s.tf.stop := by
          by_contra past
          apply ended
          unfold Transfer.copied
          rw [if_neg (fun window => past window.2)]
          exact UInt32.not_lt.mp past
        have fewer := less before
        exact ⟨start.symm ▸ low, by rw [sameTurns]; omega⟩
    · cases passed
  · -- in front of the window nothing is read and nothing asked for
    by_cases more : len ≠ 0 ∧ tf.start < tf.stop
    · have same : readPass ⟨tf, len, [], [], [], turns⟩ = some (.again ⟨tf, len, [], [], [], turns⟩) := by
        have nothing : Transfer.copied ⟨tf, len, [], [], [], turns⟩ =
          ⟨tf, len, [], [], [], turns⟩ := if_neg fun window => inside window.1
        have before : ¬ tf.stop ≤ tf.foffs := by
          have less := UInt32.lt_iff_toNat_lt.mp more.2
          rw [UInt32.le_iff_toNat_le] at inside ⊢
          omega
        unfold readPass
        rw [if_pos more, nothing]
        exact if_neg before
      have stuck := @loop_never_leaves _ _ readPass (· = ⟨tf, len, [], [], [], turns⟩)
        (fun _ here => .inr ⟨⟨tf, len, [], [], [], turns⟩, here ▸ same, rfl⟩) fuel _ rfl
      rw [stuck] at left
      cases left
    · have ended : readPass ⟨tf, len, [], [], [], turns⟩ =
        some (.leave ⟨tf, len, [], [], [], turns⟩) := if_neg more
      have positive : 0 < fuel := by
        by_contra none
        rw [Nat.eq_zero_of_not_pos none] at left
        cases left
      rw [loop_leave positive ended] at left
      rw [← left]
      exact loop_leave (by omega) ended

theorem tftpWrite_enough {stack : Memory} {tf : TftpFile} {len : UInt32} {data : List UInt8}
    {turns : List Turn} {fuel : Nat}
    {s : Transfer} (left : loop (writePass stack) fuel ⟨tf, len, data, [], [], turns⟩ = some s) :
    loop (writePass stack) (2 * len.toNat + 2) ⟨tf, len, data, [], [], turns⟩ = some s := by
  refine loop_within (fun _ => True) (fun s => 2 * s.nb.toNat + if s.tf.stop =
    UInt32.ofNat tftpblksize then 1 else 0) ?_ left
    trivial ?_
  · intro s next _ passed
    refine ⟨trivial, ?_⟩
    unfold writePass at passed
    split at passed
    · next more =>
      have positive : s.nb.toNat ≠ 0 := fun zero => more (UInt32.toNat_inj.mp zero)
      have n := @min_word (UInt32.ofNat tftpblksize - s.tf.stop) s.nb
      have nb : (s.nb - min (UInt32.ofNat tftpblksize - s.tf.stop) s.nb).toNat =
          s.nb.toNat - min (UInt32.ofNat tftpblksize - s.tf.stop).toNat s.nb.toNat := by
        rw [word_sub (by omega), n]
      have room : s.tf.stop ≠ UInt32.ofNat tftpblksize →
          (UInt32.ofNat tftpblksize - s.tf.stop).toNat ≠ 0 := by
        intro part zero
        apply part
        have whole : UInt32.ofNat tftpblksize - s.tf.stop = 0 := UInt32.toNat_inj.mp zero
        exact (sub_eq_zero.mp whole).symm
      dsimp only at passed
      split at passed
      · split at passed
        · cases passed
        · next a answered =>
          cases passed
          show 2 * (s.nb - min (UInt32.ofNat tftpblksize - s.tf.stop) s.nb).toNat +
            (if (0 : UInt32) = _ then 1 else 0) < _
          rw [nb, if_neg (by decide)]
          split
          · omega
          · next part =>
            have some := room part
            omega
      · next part =>
        cases passed
        show 2 * (s.nb - min (UInt32.ofNat tftpblksize - s.tf.stop) s.nb).toNat + _ < _
        rw [nb, if_neg part]
        split
        · next full =>
          have none : min (UInt32.ofNat tftpblksize - s.tf.stop) s.nb = 0 := by
            apply UInt32.toNat_inj.mp
            rw [n, full, sub_self]
            exact Nat.zero_min _
          rw [none, add_zero] at part
          exact absurd full part
        · next part =>
          have some := room part
          omega
    · cases passed
  · show 2 * len.toNat + (if tf.stop = _ then 1 else 0) < 2 * len.toNat + 2
    split <;> omega

/-- Requests that fail are reported only where there are none, or where a write returns its length
    and this is -1. After a read with a failed request no read returns anything. -/
theorem failures_reported_iff (stack : Memory) (tf : TftpFile) (len : UInt32) (data : List UInt8)
    (turns : List Turn) :
    (∀ r, tftpRead tf len turns = some r →
        (ReadReported r ↔ r.failures = []) ∧
          (r.failures ≠ [] → ∀ tf', tf'.start = r.tf.start → tf'.stop = r.tf.stop →
            ∀ len' turns', ∃ ret, tftpRead tf' len' turns' = some ⟨ret, [], tf', [], [], turns'⟩)) ∧
      ∀ r, tftpWrite stack tf len data turns = some r →
        (WriteReported r ↔ r.failures = [] ∨ len = minusOne ∧ ∀ f ∈ r.failures, InMap f) := by
  constructor
  · intro r call
    have closed := tftpRead_closed call
    constructor
    · constructor
      · intro reported
        rcases closed with none | ⟨f, only, some, moved, _⟩
        · exact none
        · obtain ⟨_, _, start, _⟩ := reported f (only ▸ List.mem_singleton_self f)
          rw [start] at moved
          rw [moved] at some
          exact absurd some (UInt32.lt_irrefl _)
      · intro none f member
        rw [none] at member
        cases member
    · intro failed tf' start stop len' turns'
      rcases closed with none | ⟨f, _, _, _, empty⟩
      · exact absurd none failed
      · unfold tftpRead
        split
        · exact ⟨_, rfl⟩
        · have ended : readPass ⟨tf', len', [], [], [], turns'⟩ =
              some (.leave ⟨tf', len', [], [], [], turns'⟩) := by
            refine if_neg fun more => empty ?_
            rw [← start, ← stop]
            exact more.2
          rw [loop_leave (by omega) ended]
          exact ⟨_, rfl⟩
  · intro r call
    unfold tftpWrite at call
    dsimp only at call
    split at call
    · cases call
      exact iff_of_true (fun _ member => by cases member) (.inl rfl)
    · split at call
      · cases call
      · next s left =>
        cases call
        have done : s.nb = 0 := loop_invariant (fun _ => True) (fun s => s.nb = 0) (fun _ _ _ _ => trivial)
          (fun _ _ passed _ => writePass_leave passed) left trivial
        unfold WriteReported
        dsimp only
        rw [done, sub_zero]
        constructor
        · intro reported
          cases failures : s.failures with
          | nil => exact .inl rfl
          | cons f rest =>
            rw [failures] at reported
            exact .inr ⟨(reported f List.mem_cons_self).1, fun f member => (reported f member).2⟩
        · rintro (none | ⟨all, inMap⟩) f member
          · rw [none] at member
            cases member
          · exact ⟨all, inMap f member⟩

def begun : TftpFile := ⟨1069, 1, 0, 512, 0, .rdonly, false, fun _ => 0⟩

def strangeError : Datagram := ⟨1069, [0, 5, 0, 9], by decide⟩

/-- After the 512 bytes of the block the next one is asked for, and the answer is the error. The
    call returns 512, `tftperrmap` is read at index 9, and the window has changed. -/
theorem error_unreported : ∃ r, tftpRead begun 512 [⟨true, some strangeError⟩] = some r ∧ r.ret = 512 ∧
    r.failures = [⟨0, 512, 512, some 9⟩] ∧ r.tf.start = 512 ∧ r.tf.stop = 511 ∧ ¬ ReadReported r := by
  have failed : ∃ r, tftpRead begun 512 [⟨true, some strangeError⟩] = some r ∧ r.ret = 512 ∧
      r.failures = [⟨0, 512, 512, some 9⟩] ∧ r.tf.start = 512 ∧ r.tf.stop = 511 :=
    ⟨_, rfl, rfl, rfl, rfl, rfl⟩
  obtain ⟨r, call, ret, failures, start, stop⟩ := failed
  refine ⟨r, call, ret, failures, start, stop, fun reported => ?_⟩
  have wrong := (reported ⟨0, 512, 512, some 9⟩ (by rw [failures]; exact List.mem_singleton_self _)).1
  rw [ret] at wrong
  exact absurd wrong (by decide)

end Embryo.Fs.Tftp
