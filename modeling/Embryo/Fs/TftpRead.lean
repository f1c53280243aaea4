import Embryo.Fs.Tftp

namespace Embryo.Fs.Tftp

open Embryo.Machine

def espipe : Nat := 29

def Datagram.kind (d : Datagram) : UInt16 := ntohs (get16 (write (fun _ => 0) 0 d.data) 0)
def Datagram.number (d : Datagram) : UInt16 := ntohs (get16 (write (fun _ => 0) 0 d.data) 2)

def fileBlock (file : List UInt8) (n : Nat) : List UInt8 :=
  (file.drop (tftpblksize * (n - 1))).take tftpblksize

/-- A DATA packet with a number that is not 0 is the block of the file that has this number. -/
def Honest (file : List UInt8) (d : Datagram) : Prop :=
  tftpminsize ≤ d.data.length → d.kind = tftpOpcodeData → d.number ≠ 0 →
    d.data.drop tftpminsize = fileBlock file d.number.toNat

def Server (file : List UInt8) (port : UInt16) (turns : List Turn) : Prop :=
  ∀ t ∈ turns, ∀ d ∈ t.reply, d.port = port → Honest file d

def tftpOpenRead (port : UInt16) (turns : List Turn) : Option (Option (TftpFile × List Turn)) :=
  let tf : TftpFile := ⟨port, 1, 0, 0, 0, .rdonly, false, fun _ => 0⟩
  match tftprrq tf 0 turns with
  | none => none
  | some a =>
    let tf := { a.tf with stop := a.tf.stop + UInt32.ofInt a.size }
    some (if 0 ≤ a.size then some (tf, a.turns) else none)

inductive Whence where
  | set
  | cur
  | end_
deriving DecidableEq, Repr

def lseekTo (tf : TftpFile) (noff : UInt32) : UInt32 × Option Nat × TftpFile :=
  if tf.accMode = .wronly then
    if noff ≠ tf.foffs then (minusOne, some espipe, tf) else (noff, none, tf)
  else if noff < tf.start then (minusOne, some espipe, tf)
  else (noff, none, { tf with foffs := noff })

def tftpLseek (tf : TftpFile) (off : UInt32) : Whence → UInt32 × Option Nat × TftpFile
  | .cur => lseekTo tf (tf.foffs + off)
  | .set => lseekTo tf off
  | .end_ => (minusOne, some eperm, tf)

theorem datagram_read (buf : Memory) {d : Datagram} (long : tftpminsize ≤ d.data.length) :
    opcode (write buf 0 d.data) = d.kind ∧ blk (write buf 0 d.data) = d.number := by
  have same : ∀ x < 4, write buf 0 d.data x = write (fun _ => 0) 0 d.data x := by
    intro x less
    have inside : 0 ≤ x ∧ x < 0 + d.data.length := ⟨Nat.zero_le x, by rw [tftpminsize] at long; omega⟩
    rw [write, write, if_pos inside, if_pos inside]
  exact ⟨congrArg ntohs (get16_congr fun x _ high => same x (by omega)),
    congrArg ntohs (get16_congr fun x _ high => same x (by omega))⟩

theorem bytes_payload (buf : Memory) {d : Datagram} (long : tftpminsize ≤ d.data.length) :
    bytes (write buf 0 d.data) tftpminsize (d.data.length - tftpminsize) = d.data.drop tftpminsize := by
  have dropped := bytes_drop (write buf 0 d.data) (a := 0) long
  rw [bytes_write, Nat.zero_add] at dropped
  exact dropped.symm

theorem minus_one_negative : ¬ 0 ≤ (-1 : Int) := by decide

structure Fetched (file : List UInt8) (tf : TftpFile) (turns : List Turn) (a : Answer) : Prop where
  size : a.size = ((fileBlock file tf.block.toNat).length : Int)
  data : bytes a.tf.buf tftpminsize (fileBlock file tf.block.toNat).length = fileBlock file tf.block.toNat
  eof : a.tf.eof = decide ((fileBlock file tf.block.toNat).length < tftpblksize)
  block : a.tf.block = tf.block
  early : tf.block.toNat < 2^16
  rest : a.turns ⊆ turns

theorem tftprrq_port {tf : TftpFile} {sends : Nat} {turns : List Turn} {a : Answer}
    (answered : tftprrq tf sends turns = some a)
    (later : ¬ tf.block ≤ 1) : a.tf.sinPort = tf.sinPort := by
  induction turns generalizing tf sends with
  | nil => cases answered
  | cons turn turns ih =>
    unfold tftprrq at answered
    split at answered
    · cases answered
      rfl
    split at answered
    · cases answered
      rfl
    split at answered
    · exact (ih answered later :)
    dsimp only at answered
    rw [if_neg later] at answered
    split at answered
    · exact (ih answered later :)
    split at answered
    · exact (ih answered later :)
    split at answered
    · cases answered
      rfl
    split at answered
    · split at answered
      · cases answered
        rfl
      split at answered
      · cases answered
        rfl
      · exact (ih answered later :)
    · exact (ih answered later :)

theorem tftprrq_fetched {file : List UInt8} {tf : TftpFile} {sends : Nat} {turns : List Turn} {a : Answer}
    (answered : tftprrq tf sends turns = some a) (good : 0 ≤ a.size) (going : tf.eof = false)
    (positive : tf.block ≠ 0)
    (server : Server file a.tf.sinPort turns) : Fetched file tf turns a := by
  induction turns generalizing tf sends with
  | nil => cases answered
  | cons turn turns ih =>
    unfold tftprrq at answered
    split at answered
    · cases answered
      exact absurd good minus_one_negative
    rw [if_neg (by rw [going]; exact Bool.false_ne_true)] at answered
    -- what is not the block asked for leaves the file as it was, but for the buffer and the port
    have onward : ∀ {tf' : TftpFile}, tftprrq tf' (sends + 1) turns = some a → tf'.eof = tf.eof →
      tf'.block = tf.block →
        Fetched file tf (turn :: turns) a := by
      intro tf' call eof block
      have fetched := ih call (eof.trans going) (block ▸ positive) fun t member =>
        server t (List.mem_cons_of_mem turn member)
      obtain ⟨size, data, last, number, early, rest⟩ := fetched
      rw [block] at size data last number early
      exact ⟨size, data, last, number, early, List.subset_cons_of_subset turn rest⟩
    split at answered
    · exact onward answered rfl rfl
    next d reply =>
    dsimp only at answered
    split at answered
    · exact onward answered rfl rfl
    next long =>
    rw [Nat.not_lt] at long
    obtain ⟨kind, number⟩ := datagram_read tf.buf long
    generalize (if tf.block ≤ 1 then d.port else tf.sinPort) = port at answered
    split at answered
    · exact onward answered rfl rfl
    next same =>
    split at answered
    · cases answered
      exact absurd good minus_one_negative
    split at answered
    · next data =>
      split at answered
      · next wanted =>
        cases answered
        have early : tf.block.toNat = d.number.toNat := by rw [← wanted, number]; rfl
        have honest : Honest file d := server turn List.mem_cons_self d reply (not_not.mp same).symm
        have content : d.data.drop tftpminsize = fileBlock file tf.block.toNat := by
          rw [early]
          refine honest long (kind ▸ data) fun zero => positive (UInt32.toNat_inj.mp ?_)
          rw [early, zero]
          rfl
        have size : (fileBlock file tf.block.toNat).length = d.data.length - tftpminsize := by
          rw [← content, List.length_drop]
        refine ⟨?_, ?_, ?_, rfl, early ▸ d.number.toNat_lt, List.subset_cons_self turn turns⟩
        · rw [size, Int.ofNat_sub long]
        · rw [size, bytes_payload tf.buf long, content]
        · rw [size]
          dsimp only
          rw [going, Bool.false_or]
      split at answered
      · cases answered
        exact absurd good minus_one_negative
      · exact onward answered rfl rfl
    · exact onward answered rfl rfl

theorem tftprrq_ended {tf : TftpFile} {sends : Nat} {turns : List Turn} {a : Answer}
    (answered : tftprrq tf sends turns = some a)
    (good : 0 ≤ a.size) (ended : tf.eof = true) : a.size = 0 ∧ a.tf = tf ∧ a.turns ⊆ turns := by
  cases turns with
  | nil => cases answered
  | cons turn turns =>
    unfold tftprrq at answered
    split at answered
    · cases answered
      exact absurd good minus_one_negative
    · cases answered
      exact ⟨rfl, rfl, List.subset_cons_self turn turns⟩

structure Shows (file : List UInt8) (tf : TftpFile) : Prop where
  mode : tf.accMode = .rdonly
  order : tf.start.toNat ≤ tf.stop.toNat
  inside : tf.stop.toNat ≤ file.length
  data : bytes tf.buf tftpminsize (tf.stop.toNat - tf.start.toNat) =
    (file.drop tf.start.toNat).take (tf.stop.toNat - tf.start.toNat)
  ahead : tf.start.toNat ≤ tf.foffs.toNat
  ended : tf.eof = true → tf.stop.toNat = file.length
  going : tf.eof = false → tf.start.toNat < tf.stop.toNat ∧
    tf.stop.toNat = tftpblksize * tf.block.toNat ∧ 1 ≤ tf.block.toNat ∧
    tf.block.toNat < 2^16
  few : tf.stop.toNat ≤ tftpblksize * (2^16 - 1)

theorem fileBlock_length (file : List UInt8) (n : Nat) :
    (fileBlock file n).length = min tftpblksize (file.length - tftpblksize * (n - 1)) := by
  rw [fileBlock, List.length_take, List.length_drop]

theorem Fetched.shows {file : List UInt8} {tf : TftpFile} {turns : List Turn} {a : Answer}
    (fetched : Fetched file tf turns a) (same : SameWindow tf a.tf) (mode : tf.accMode = .rdonly)
    (positive : 1 ≤ tf.block.toNat) (stop : tf.stop.toNat = tftpblksize * (tf.block.toNat - 1))
    (inside : tf.stop.toNat ≤ file.length) (past : tf.stop.toNat ≤ tf.foffs.toNat) :
    Shows file { a.tf with start := a.tf.stop, stop := a.tf.stop + UInt32.ofInt a.size } := by
  have length := fileBlock_length file tf.block.toNat
  have early := fetched.early
  rw [← stop] at length
  have size : (UInt32.ofInt a.size).toNat = (fileBlock file tf.block.toNat).length := by
    have small : (fileBlock file tf.block.toNat).length < 2^32 :=
      lt_of_le_of_lt (length ▸ Nat.min_le_left _ _) (by decide)
    have same : (a.size % 2^32).toNat = (fileBlock file tf.block.toNat).length := by
      rw [fetched.size]
      omega
    rw [UInt32.ofInt, same, UInt32.toNat_ofNat_of_lt' small]
  have grown : (a.tf.stop + UInt32.ofInt a.size).toNat = tf.stop.toNat +
      (fileBlock file tf.block.toNat).length := by
    rw [UInt32.toNat_add, size, same.stop, Nat.mod_eq_of_lt]
    rw [tftpblksize] at length stop
    omega
  rw [tftpblksize] at length stop
  refine ⟨same.accMode.trans mode, ?_, ?_, ?_, ?_, ?_, ?_, ?_⟩
  · dsimp only
    rw [grown, same.stop]
    exact Nat.le_add_right _ _
  · dsimp only
    rw [grown]
    omega
  · dsimp only
    rw [grown, same.stop, Nat.add_sub_cancel_left, fetched.data, fileBlock, tftpblksize, ← stop,
      List.length_take]
    exact List.take_eq_take_min
  · dsimp only
    rw [same.stop, same.foffs]
    exact past
  · intro last
    have short := of_decide_eq_true (fetched.eof.symm.trans last)
    dsimp only
    rw [tftpblksize] at short
    rw [grown]
    omega
  · intro more
    have full := of_decide_eq_false (fetched.eof.symm.trans more)
    dsimp only
    rw [grown, same.stop, fetched.block, tftpblksize]
    rw [tftpblksize] at full
    omega
  · dsimp only
    rw [grown, tftpblksize]
    omega

theorem Shows.again {file : List UInt8} {tf : TftpFile} (shows_ : Shows file tf) (ended : tf.eof = true)
    (past : tf.stop.toNat ≤ tf.foffs.toNat) (block : UInt32) :
    Shows file { tf with block, start := tf.stop, stop := tf.stop + UInt32.ofInt 0 } := by
  have same : tf.stop + UInt32.ofInt 0 = tf.stop := add_zero tf.stop
  refine ⟨shows_.mode, ?_, ?_, ?_, past, ?_, ?_, ?_⟩
  all_goals dsimp only
  all_goals rw [same]
  · exact shows_.inside
  · rw [Nat.sub_self, List.take_zero]
    rfl
  · exact shows_.ended
  · intro more
    exact Bool.noConfusion (ended.symm.trans more)
  · exact shows_.few

theorem Shows.fetch {file : List UInt8} {tf : TftpFile} {turns : List Turn} {a : Answer}
    (shows_ : Shows file tf) (past : tf.stop ≤ tf.foffs)
    (answered : tftprrq { tf with block := tf.block + 1 } 0 turns = some a) (good : 0 ≤ a.size)
    (server : Server file tf.sinPort turns) :
    Shows file { a.tf with start := a.tf.stop, stop := a.tf.stop + UInt32.ofInt a.size } ∧
      a.tf.sinPort = tf.sinPort ∧
      a.tf.foffs = tf.foffs ∧ a.tf.stop = tf.stop ∧ a.turns ⊆ turns := by
  obtain ⟨same, _⟩ := tftprrq_spec answered
  rw [UInt32.le_iff_toNat_le] at past
  cases ended : tf.eof with
  | true =>
    obtain ⟨size, tf_, rest⟩ := tftprrq_ended answered good ended
    rw [size, tf_]
    exact ⟨shows_.again ended past _, rfl, rfl, rfl, rest⟩
  | false =>
    obtain ⟨_, stop, first, early⟩ := shows_.going ended
    have next : (tf.block + 1).toNat = tf.block.toNat + 1 := by
      rw [UInt32.toNat_add]
      exact Nat.mod_eq_of_lt (lt_trans (Nat.add_lt_add_right early 1) (by decide))
    have later : ¬ tf.block + 1 ≤ 1 := by
      rw [UInt32.le_iff_toNat_le, next]
      exact Nat.not_le.mpr (Nat.add_lt_add_right first 1)
    have port : a.tf.sinPort = tf.sinPort := (tftprrq_port answered later :)
    have fetched : Fetched file { tf with block := tf.block + 1 } turns a := by
      refine tftprrq_fetched answered good ended (fun zero => ?_) (port ▸ server)
      have := congrArg UInt32.toNat zero
      rw [next] at this
      exact Nat.succ_ne_zero _ this
    refine ⟨fetched.shows same shows_.mode ?_ ?_ shows_.inside past, port, same.foffs, same.stop,
      fetched.rest⟩
    · dsimp only
      rw [next]
      exact Nat.le_add_left 1 _
    · dsimp only
      rw [next, stop, Nat.add_sub_cancel]

structure Reads (file : List UInt8) (tf : TftpFile) (len : UInt32) (turns : List Turn)
    (s : Transfer) : Prop where
  shows_ : Shows file s.tf
  port : s.tf.sinPort = tf.sinPort
  data : s.data = (file.drop tf.foffs.toNat).take s.data.length
  foffs : s.tf.foffs.toNat = tf.foffs.toNat + s.data.length
  nb : s.nb.toNat + s.data.length = len.toNat
  few : s.data ≠ [] → s.tf.foffs.toNat ≤ s.tf.stop.toNat
  rest : s.turns ⊆ turns

theorem take_append_take_drop {l : List UInt8} {i j : Nat} : l.take i ++ (l.drop i).take j = l.take (i + j) :=
  List.take_add.symm

theorem Reads.copied {file : List UInt8} {tf : TftpFile} {len : UInt32} {turns : List Turn} {s : Transfer}
    (reads : Reads file tf len turns s) : Reads file tf len turns s.copied := by
  unfold Transfer.copied
  split
  · next window =>
    dsimp only
    have shows_ := reads.shows_
    have low := UInt32.le_iff_toNat_le.mp window.1
    have high := UInt32.lt_iff_toNat_lt.mp window.2
    have few := shows_.few
    have inside := shows_.inside
    have n := @min_word (s.tf.stop - s.tf.foffs) s.nb
    rw [word_sub (Nat.le_of_lt high)] at n
    generalize count : (min (s.tf.stop - s.tf.foffs) s.nb) = k at n ⊢
    have nb : (s.nb - k).toNat = s.nb.toNat - k.toNat := word_sub (by omega)
    have bound : s.tf.stop.toNat < 2^32 := s.tf.stop.toNat_lt
    have foffs : (s.tf.foffs + k).toNat = s.tf.foffs.toNat + k.toNat := by
      rw [UInt32.toNat_add]
      omega
    have past : (s.tf.foffs - s.tf.start).toNat = s.tf.foffs.toNat - s.tf.start.toNat := word_sub low
    have piece : bytes s.tf.buf (tftpminsize + (s.tf.foffs - s.tf.start).toNat) k.toNat =
        (file.drop s.tf.foffs.toNat).take k.toNat := by
      have whole := congrArg (fun l => (l.drop (s.tf.foffs.toNat - s.tf.start.toNat)).take k.toNat)
        shows_.data
      rw [bytes_drop _ (by omega), bytes_take _ (by omega), List.drop_take, List.drop_drop,
        List.take_take] at whole
      rw [past, whole]
      congr 1
      · omega
      · congr 1
        omega
    have length : ((file.drop s.tf.foffs.toNat).take k.toNat).length = k.toNat := by
      rw [List.length_take, List.length_drop]
      omega
    have more : (s.data ++ bytes s.tf.buf (tftpminsize + (s.tf.foffs - s.tf.start).toNat) k.toNat).length =
        s.data.length + k.toNat := by rw [List.length_append, bytes_length]
    refine ⟨{ shows_ with ahead := ?_ }, reads.port, ?_, ?_, ?_, fun _ => ?_, reads.rest⟩
    · show s.tf.start.toNat ≤ (s.tf.foffs + k).toNat
      rw [foffs]
      omega
    · dsimp only
      rw [more, piece, reads.foffs, ← List.drop_drop, ← take_append_take_drop, ← reads.data]
    · dsimp only
      rw [foffs, more, reads.foffs, Nat.add_assoc]
    · dsimp only
      rw [nb, more]
      have whole := reads.nb
      omega
    · dsimp only
      rw [foffs]
      omega
  · exact reads

theorem readPass_reads {file : List UInt8} {tf : TftpFile} {len : UInt32} {turns : List Turn}
    {s next : Transfer} (passed : readPass s = some (.again next))
    (server : Server file tf.sinPort turns) (kept : s.failures = [] → Reads file tf len turns s) :
    next.failures = [] → Reads file tf len turns next := by
  unfold readPass at passed
  split at passed
  · have same := (copied_same s).2.2
    dsimp only at passed
    split at passed
    · next past =>
      split at passed
      · cases passed
      · next a answered =>
        cases passed
        intro succeeded
        obtain ⟨before, fresh⟩ := List.append_eq_nil_iff.mp succeeded
        have good : 0 ≤ a.size := by
          by_contra negative
          rw [failuresOf, if_pos (Int.not_le.mp negative)] at fresh
          cases fresh
        have reads := (kept (same ▸ before)).copied
        obtain ⟨shows_, port, foffs, stop, rest⟩ :=
            reads.shows_.fetch past answered good fun t member d reply from_ =>
          server t (reads.rest member) d reply (from_.trans reads.port)
        refine ⟨shows_, port.trans reads.port, reads.data, ?_, reads.nb, fun some => ?_,
          List.Subset.trans rest reads.rest⟩
        · exact (congrArg UInt32.toNat foffs).trans reads.foffs
        · have order := shows_.order
          dsimp only at order ⊢
          rw [foffs]
          rw [stop] at order ⊢
          exact le_trans (reads.few some) order
    · cases passed
      exact fun succeeded => (kept (same ▸ succeeded)).copied
  · cases passed

/-- A read that has had no failure has given what stands in the file from the position on, and stops
    early only where the file ends. -/
theorem tftpRead_reads {file : List UInt8} {tf : TftpFile} {len : UInt32} {turns : List Turn} {r : Result}
    (call : tftpRead tf len turns = some r) (shows_ : Shows file tf)
    (server : Server file tf.sinPort turns) (succeeded : r.failures = []) :
    Shows file r.tf ∧ r.tf.sinPort = tf.sinPort ∧ r.data = (file.drop tf.foffs.toNat).take r.data.length ∧
      r.ret.toNat = r.data.length ∧ r.tf.foffs.toNat = tf.foffs.toNat + r.data.length ∧
      (r.data.length < len.toNat → file.length ≤ tf.foffs.toNat + r.data.length) ∧
      (r.data ≠ [] → tf.foffs.toNat + r.data.length ≤ tftpblksize * (2^16 - 1)) := by
  unfold tftpRead at call
  rw [if_neg (not_not.mpr shows_.mode)] at call
  split at call
  · cases call
  · next s left =>
    cases call
    have done : s.failures = [] → Reads file tf len turns s ∧ (s.nb ≠ 0 → ¬ s.tf.start < s.tf.stop) := by
      refine loop_invariant (fun s => s.failures = [] → Reads file tf len turns s)
        (fun s => s.failures = [] → Reads file tf len turns s ∧ (s.nb ≠ 0 → ¬ s.tf.start < s.tf.stop))
        (fun _ _ passed kept => readPass_reads passed server kept) ?_ left fun _ => ?_
      · intro s result passed kept succeeded
        have same := readPass_leave passed
        subst same
        refine ⟨kept succeeded, fun more window => ?_⟩
        rw [readPass, if_pos ⟨more, window⟩] at passed
        dsimp only at passed
        split at passed
        · split at passed <;> cases passed
        · cases passed
      · exact ⟨shows_, rfl, List.take_zero.symm, rfl, rfl, fun some => absurd rfl some,
          List.Subset.refl turns⟩
    obtain ⟨reads, stopped⟩ := done succeeded
    have nb := reads.nb
    refine ⟨reads.shows_, reads.port, reads.data, ?_, reads.foffs, fun short => ?_, fun some => ?_⟩
    · show (len - s.nb).toNat = s.data.length
      rw [word_sub (by omega)]
      omega
    · have empty := stopped fun none => by
        rw [none] at nb
        rw [← nb, show UInt32.toNat 0 = 0 from rfl, Nat.zero_add] at short
        exact Nat.lt_irrefl _ short
      rw [UInt32.lt_iff_toNat_lt] at empty
      have ended : s.tf.eof = true := by
        by_contra more
        exact empty (reads.shows_.going (Bool.not_eq_true _ ▸ more)).1
      have ahead := reads.shows_.ahead
      have order := reads.shows_.order
      rw [← reads.shows_.ended ended, ← reads.foffs]
      omega
    · rw [← reads.foffs]
      exact le_trans (reads.few some) reads.shows_.few

theorem tftpOpenRead_shows {file : List UInt8} {port : UInt16} {turns rest : List Turn} {tf : TftpFile}
    (opened : tftpOpenRead port turns = some (some (tf, rest))) (server : Server file tf.sinPort turns) :
    Shows file tf ∧ tf.foffs = 0 := by
  unfold tftpOpenRead at opened
  dsimp only at opened
  split at opened
  · cases opened
  · next a answered =>
    split at opened
    · next good =>
      cases opened
      have one : (1 : UInt32) ≠ 0 := by decide
      have fetched : Fetched file _ turns a := tftprrq_fetched answered good rfl one server
      have same := (tftprrq_spec answered).1
      have start : a.tf.start = a.tf.stop := same.start.trans same.stop.symm
      have shows_ := fetched.shows same rfl (Nat.le_refl 1) rfl (Nat.zero_le _) (Nat.le_refl _)
      rw [← start] at shows_
      refine ⟨?_, same.foffs⟩
      rw [← start]
      exact shows_
    · cases opened

inductive Call where
  | read (len : UInt32) (turns : List Turn)
  | lseek (off : UInt32) (whence : Whence)

/-- A read that has been made: the position it was made at, the length asked for, what it returned
    and what it gave. -/
structure Seen where
  foffs : Nat
  len : Nat
  ret : Nat
  data : List UInt8

structure Client where
  tf : TftpFile
  seen : List Seen
  failures : List Failure

def Client.step (c : Client) : Call → Option Client
  | .read len turns =>
    match tftpRead c.tf len turns with
    | none => none
    | some r =>
      some ⟨r.tf, c.seen ++ [⟨c.tf.foffs.toNat, len.toNat, r.ret.toNat, r.data⟩], c.failures ++ r.failures⟩
  | .lseek off whence => some { c with tf := (tftpLseek c.tf off whence).2.2 }

def Client.run (c : Client) : List Call → Option Client
  | [] => some c
  | call :: rest => (c.step call).bind fun c' => c'.run rest

theorem Shows.lseekTo {file : List UInt8} {tf : TftpFile} (shows_ : Shows file tf) (noff : UInt32) :
    Shows file (lseekTo tf noff).2.2 ∧ (lseekTo tf noff).2.2.sinPort = tf.sinPort := by
  have mode : tf.accMode ≠ .wronly := by
    rw [shows_.mode]
    decide
  unfold Tftp.lseekTo
  rw [if_neg mode]
  split
  · exact ⟨shows_, rfl⟩
  · next ahead => exact ⟨{ shows_ with ahead := UInt32.le_iff_toNat_le.mp (UInt32.not_lt.mp ahead) }, rfl⟩

theorem Shows.lseek {file : List UInt8} {tf : TftpFile} (shows_ : Shows file tf) (off : UInt32)
    (whence : Whence) :
    Shows file (tftpLseek tf off whence).2.2 ∧ (tftpLseek tf off whence).2.2.sinPort = tf.sinPort := by
  cases whence with
  | end_ => exact ⟨shows_, rfl⟩
  | set => exact shows_.lseekTo off
  | cur => exact shows_.lseekTo (tf.foffs + off)

/-- A read has given what stands in the file at its position, no less unless the file ends, and
    nothing from behind the last block that has a number. -/
structure Seen.Right (file : List UInt8) (r : Seen) : Prop where
  data : r.data = (file.drop r.foffs).take r.data.length
  ret : r.ret = r.data.length
  whole : r.data.length < r.len → file.length ≤ r.foffs + r.data.length
  few : r.data ≠ [] → r.foffs + r.data.length ≤ tftpblksize * (2^16 - 1)

def Served (file : List UInt8) (port : UInt16) (calls : List Call) : Prop :=
  ∀ len turns, .read len turns ∈ calls → Server file port turns

/-- The state of a run without failures: the window shows the file, and the reads so far have been right. -/
structure Follows (file : List UInt8) (port : UInt16) (c : Client) : Prop where
  shows_ : Shows file c.tf
  port : c.tf.sinPort = port
  right : ∀ r ∈ c.seen, r.Right file

theorem Client.step_follows {file : List UInt8} {port : UInt16} {c c' : Client} {call : Call}
    (stepped : c.step call = some c')
    (served : Served file port [call]) (follows : c.failures = [] → Follows file port c) :
    c'.failures = [] → Follows file port c' := by
  cases call with
  | read len turns =>
    simp only [Client.step] at stepped
    split at stepped
    · cases stepped
    · next r answered =>
      cases stepped
      intro succeeded
      obtain ⟨before, fresh⟩ := List.append_eq_nil_iff.mp succeeded
      obtain ⟨shows_, same, right⟩ := follows before
      have server := served len turns List.mem_cons_self
      rw [← same] at server
      obtain ⟨after, port, data, ret, _, whole, few⟩ := tftpRead_reads answered shows_ server fresh
      refine ⟨after, port.trans same, fun seen member => ?_⟩
      rcases List.mem_append.mp member with old | new
      · exact right seen old
      · rw [List.mem_singleton.mp new]
        exact ⟨data, ret, whole, few⟩
  | lseek off whence =>
    cases stepped
    intro succeeded
    obtain ⟨shows_, same, right⟩ := follows succeeded
    obtain ⟨after, port⟩ := shows_.lseek off whence
    exact ⟨after, port.trans same, right⟩

theorem Client.run_follows {file : List UInt8} {port : UInt16} {c c' : Client} {calls : List Call}
    (ran : c.run calls = some c')
    (served : Served file port calls) (follows : c.failures = [] → Follows file port c) :
    c'.failures = [] → Follows file port c' := by
  induction calls generalizing c with
  | nil =>
    cases ran
    exact follows
  | cons call rest ih =>
    obtain ⟨next, stepped, ran⟩ := Option.bind_eq_some_iff.mp ran
    refine ih ran (fun len turns member => served len turns (List.mem_cons_of_mem call member)) ?_
    refine Client.step_follows stepped (fun len turns member => ?_) follows
    exact served len turns (List.mem_singleton.mp member ▸ List.mem_cons_self)

theorem Client.reads_concat {file : List UInt8} {port : UInt16} {c c' : Client} {calls : List Call}
    (ran : c.run calls = some c')
    (plain : ∀ call ∈ calls, ∃ len turns, call = .read len turns) (served : Served file port calls)
    (follows : c.failures = [] → Follows file port c ∧ c.seen.flatMap Seen.data =
      file.take c.tf.foffs.toNat) :
    c'.failures = [] → c'.seen.flatMap Seen.data = file.take c'.tf.foffs.toNat := by
  induction calls generalizing c with
  | nil =>
    cases ran
    exact fun succeeded => (follows succeeded).2
  | cons call rest ih =>
    obtain ⟨next, stepped, later⟩ := Option.bind_eq_some_iff.mp ran
    obtain ⟨len, turns, rfl⟩ := plain call List.mem_cons_self
    have served' : Served file port rest := fun len turns member =>
      served len turns (List.mem_cons_of_mem _ member)
    refine ih later (fun call member => plain call (List.mem_cons_of_mem _ member))
      served' fun succeeded => ⟨?_, ?_⟩
    · refine Client.step_follows stepped ?_ (fun none => (follows none).1) succeeded
      exact fun len turns member => served len turns (List.mem_singleton.mp member ▸ List.mem_cons_self)
    · simp only [Client.step] at stepped
      split at stepped
      · cases stepped
      · next r answered =>
        cases stepped
        obtain ⟨before, fresh⟩ := List.append_eq_nil_iff.mp succeeded
        obtain ⟨⟨shows_, same, _⟩, concat⟩ := follows before
        have server := served len turns List.mem_cons_self
        rw [← same] at server
        obtain ⟨_, _, data, _, foffs, _⟩ := tftpRead_reads answered shows_ server fresh
        dsimp only
        rw [List.flatMap_append, concat, List.flatMap_singleton, foffs, data, take_append_take_drop, ← data]

/-- From an open on, any reads and seeks of a file whose blocks the server sends, with whatever
    other packets, give the bytes of the file, as long as no request has failed; and plain reads
    give the file from its first byte on. -/
theorem reads_deliver_file (file : List UInt8) (port : UInt16) (turns rest : List Turn)
    (tf : TftpFile) (calls : List Call) (c : Client)
    (opened : tftpOpenRead port turns = some (some (tf, rest))) (server : Server file tf.sinPort turns)
    (served : Served file tf.sinPort calls) (ran : Client.run ⟨tf, [], []⟩ calls = some c)
    (succeeded : c.failures = []) :
    (∀ r ∈ c.seen, r.Right file) ∧
      ((∀ call ∈ calls, ∃ len turns, call = .read len turns) →
        c.seen.flatMap Seen.data = file.take c.tf.foffs.toNat) := by
  obtain ⟨shows_, start⟩ := tftpOpenRead_shows opened server
  have first : Follows file tf.sinPort ⟨tf, [], []⟩ := ⟨shows_, rfl, fun _ member => by cases member⟩
  refine ⟨(Client.run_follows ran served (fun _ => first) succeeded).right, fun plain => ?_⟩
  refine Client.reads_concat ran plain served (fun _ => ⟨first, ?_⟩) succeeded
  dsimp only
  rw [start]
  rfl

def longFile : List UInt8 := List.replicate 512 7 ++ [8, 9, 10]

def firstBlock : Datagram := ⟨1069, [0, 3, 0, 1] ++ List.replicate 512 7, by decide +kernel⟩
def lastBlock : Datagram := ⟨1069, [0, 3, 0, 2, 8, 9, 10], by decide⟩

def foreignBlock : Datagram := ⟨4000, [0, 3, 0, 2, 1, 1, 1, 1], by decide⟩

/-- Before the last block a late copy of the first one and a foreign one come; the last one is
    acknowledged, and nothing more is waited for. -/
def longTurns : List Turn :=
  [⟨true, some firstBlock⟩, ⟨true, some foreignBlock⟩, ⟨true, some lastBlock⟩, ⟨true, none⟩]

theorem firstBlock_honest : Honest longFile firstBlock := fun _ _ _ => by decide +kernel
theorem lastBlock_honest : Honest longFile lastBlock := fun _ _ _ => by decide +kernel

theorem longTurns_server : Server longFile 1069 longTurns := by
  intro t member d reply port
  simp only [longTurns, List.mem_cons, List.not_mem_nil, or_false] at member
  rcases member with rfl | rfl | rfl | rfl
  all_goals cases reply
  · exact firstBlock_honest
  · exact absurd port (by decide)
  · exact lastBlock_honest

set_option maxRecDepth 4000 in
theorem reads_deliver_file_twice : ∃ tf c, tftpOpenRead 69 [⟨true, some firstBlock⟩] = some (some (tf, [])) ∧
    Client.run ⟨tf, [], []⟩ [.read 500 [], .read 100 longTurns] = some c ∧ c.seen.map Seen.ret = [500, 15] ∧
    c.seen.flatMap Seen.data = longFile.take c.tf.foffs.toNat := by
  have both : ∃ tf c, tftpOpenRead 69 [⟨true, some firstBlock⟩] = some (some (tf, [])) ∧ tf.sinPort = 1069 ∧
      Client.run ⟨tf, [], []⟩ [.read 500 [], .read 100 longTurns] = some c ∧ c.failures = [] ∧
        c.seen.map Seen.ret = [500, 15] := ⟨_, _, rfl, rfl, rfl, rfl, rfl⟩
  obtain ⟨tf, c, opened, port, ran, succeeded, given⟩ := both
  refine ⟨tf, c, opened, ran, given,
    (reads_deliver_file longFile 69 _ [] tf _ c opened ?_ ?_ ran succeeded).2 ?_⟩
  · intro t member d reply _
    rw [List.mem_singleton.mp member] at reply
    cases reply
    exact firstBlock_honest
  · intro len turns member
    rw [port]
    rcases List.mem_pair.mp member with first | second
    · cases first
      exact fun _ none => by cases none
    · cases second
      exact longTurns_server
  · intro call member
    rcases List.mem_pair.mp member with rfl | rfl
    · exact ⟨_, _, rfl⟩
    · exact ⟨_, _, rfl⟩

end Embryo.Fs.Tftp
