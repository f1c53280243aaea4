import Embryo.Fs.TftpRead

namespace Embryo.Fs.Tftp

open Embryo.Machine

def dataPacket (n : Nat) (payload : List UInt8) : List UInt8 :=
  bytes16 (htons tftpOpcodeData) ++ bytes16 (htons (UInt16.ofNat n)) ++ payload

def tftpOpenWrite (port : UInt16) (stack : Memory) (pktsize : Nat) (turns : List Turn) :
    Option (Option (TftpFile × List Turn)) :=
  let tf : TftpFile := ⟨port, 0, 0, 0, 0, .wronly, false, fun _ => 0⟩
  match tftpwrq tf stack pktsize 0 turns with
  | none => none
  | some a => some (if 0 ≤ a.size then some (a.tf, a.turns) else none)

structure Closing where
  sent : List (List UInt8)
  failures : List Failure
  turns : List Turn

def tftpCloseWrite (stack : Memory) (tf : TftpFile) (turns : List Turn) : Option Closing :=
  let block : UInt32 := tf.block + 1
  let buf := write (write tf.buf 0 (bytes16 (htons tftpOpcodeData))) 2
    (bytes16 (htons (UInt16.ofNat block.toNat)))
  let tf := { tf with block, buf }
  let pktsize := tftpminsize + tf.stop.toNat
  match tftpwrq tf stack pktsize 0 turns with
  | none => none
  | some a => some ⟨List.replicate a.sends (bytes tf.buf 0 pktsize), failuresOf tf a, a.turns⟩

theorem tftpwrq_acked {tf : TftpFile} {ackbuf : Memory} {pktsize sends : Nat} {turns : List Turn} {a : Answer}
    (answered : tftpwrq tf ackbuf pktsize sends turns = some a) (good : 0 ≤ a.size) :
    (∃ port, a.tf = { tf with sinPort := port }) ∧ sends < a.sends ∧ tf.block.toNat < 2^16 := by
  induction turns generalizing tf ackbuf sends with
  | nil => cases answered
  | cons turn turns ih =>
    have onward : ∀ {port : UInt16} {ackbuf : Memory}, tftpwrq { tf with sinPort := port }
      ackbuf pktsize (sends + 1) turns = some a →
        (∃ port, a.tf = { tf with sinPort := port }) ∧ sends < a.sends ∧ tf.block.toNat < 2^16 := by
      intro port ackbuf call
      obtain ⟨kept, more, early⟩ := ih call
      exact ⟨kept, Nat.lt_of_succ_lt more, early⟩
    unfold tftpwrq at answered
    split at answered
    · cases answered
      exact absurd good minus_one_negative
    split at answered
    · exact onward answered
    next d reply =>
    dsimp only at answered
    split at answered
    · exact onward answered
    generalize (if tf.block = 0 then d.port else tf.sinPort) = port at answered
    split at answered
    · exact onward answered
    split at answered
    · cases answered
      exact absurd good minus_one_negative
    split at answered
    · split at answered
      · next wanted =>
        cases answered
        refine ⟨⟨port, rfl⟩, Nat.lt_succ_self sends, ?_⟩
        rw [← wanted]
        exact UInt16.toNat_lt _
      split at answered
      · cases answered
        exact absurd good minus_one_negative
      · exact onward answered
    · exact onward answered

def Transmitted (file : List UInt8) (n : Nat) (sent : List (List UInt8)) : Prop :=
  ∃ times : Nat → Nat, (∀ k < n, 1 ≤ times k) ∧
    sent = (List.range n).flatMap fun k => List.replicate (times k)
      (dataPacket (k + 1) (fileBlock file (k + 1)))

theorem Transmitted.next {file : List UInt8} {n count : Nat} {sent : List (List UInt8)}
    (transmitted : Transmitted file n sent) (some : 1 ≤ count) :
    Transmitted file (n + 1)
    (sent ++ List.replicate count (dataPacket (n + 1) (fileBlock file (n + 1)))) := by
  obtain ⟨times, often, rfl⟩ := transmitted
  refine ⟨Function.update times n count, fun k less => ?_, ?_⟩
  · by_cases last : k = n
    · rw [last, Function.update_self]
      exact some
    · rw [Function.update_of_ne last]
      exact often k (by omega)
  · rw [List.range_succ, List.flatMap_append, List.flatMap_singleton, Function.update_self]
    congr 1
    refine List.flatMap_congr fun k member => ?_
    rw [Function.update_of_ne (Nat.ne_of_lt (List.mem_range.mp member))]

theorem fileBlock_append {file more : List UInt8} {n : Nat} (positive : 1 ≤ n)
    (full : tftpblksize * n ≤ file.length) :
    fileBlock (file ++ more) n = fileBlock file n := by
  obtain ⟨k, rfl⟩ := Nat.exists_eq_add_of_le' positive
  rw [Nat.mul_add, Nat.mul_one] at full
  rw [fileBlock, fileBlock, Nat.add_sub_cancel, List.drop_append_of_le_length (by omega),
    List.take_append_of_le_length]
  rw [List.length_drop]
  omega

theorem Transmitted.append {file more : List UInt8} {n : Nat} {sent : List (List UInt8)}
    (transmitted : Transmitted file n sent)
    (full : tftpblksize * n ≤ file.length) : Transmitted (file ++ more) n sent := by
  obtain ⟨times, often, rfl⟩ := transmitted
  refine ⟨times, often, List.flatMap_congr fun k member => ?_⟩
  have less := List.mem_range.mp member
  rw [fileBlock_append (Nat.le_add_left 1 k) (le_trans (Nat.mul_le_mul_left _ less) full)]

theorem bytes_write_apart {mem : Memory} {a n b : Nat} {xs : List UInt8}
    (apart : a + n ≤ b ∨ b + xs.length ≤ a) :
    bytes (write mem b xs) a n = bytes mem a n := bytes_congr fun x low high => write_outside (by omega)

structure Buffers (file : List UInt8) (tf : TftpFile) (sent : List (List UInt8)) : Prop where
  mode : tf.accMode = .wronly
  length : file.length = tftpblksize * tf.block.toNat + tf.stop.toNat
  room : tf.stop.toNat ≤ tftpblksize
  data : bytes tf.buf tftpminsize tf.stop.toNat = file.drop (tftpblksize * tf.block.toNat)
  early : tf.block.toNat < 2^16
  sent : Transmitted file tf.block.toNat sent

theorem buffered_packet {buf : Memory} {file : List UInt8} {block : UInt32} {size : Nat}
    (opcode : bytes buf 0 2 = bytes16 (htons tftpOpcodeData)) (early : block.toNat + 1 < 2^32)
    (data : bytes buf tftpminsize size = file.drop (tftpblksize * block.toNat)) (short : size ≤ tftpblksize) :
    bytes (write buf 2 (bytes16 (htons (UInt16.ofNat (block + 1).toNat)))) 0 (tftpminsize + size) =
      dataPacket (block.toNat + 1) (fileBlock file (block.toNat + 1)) := by
  have next : (block + 1).toNat = block.toNat + 1 := by
    rw [UInt32.toNat_add]
    exact Nat.mod_eq_of_lt early
  have whole : fileBlock file (block.toNat + 1) = file.drop (tftpblksize * block.toNat) := by
    rw [fileBlock, Nat.add_sub_cancel]
    refine List.take_of_length_le ?_
    rw [← data, bytes_length]
    exact short
  generalize number : bytes16 (htons (UInt16.ofNat (block.toNat + 1))) = xs
  have two : xs.length = 2 := number ▸ rfl
  have first : bytes (write buf 2 xs) 0 2 = bytes16 (htons tftpOpcodeData) :=
    (bytes_write_apart (.inl (Nat.le_refl 2))).trans opcode
  have second : bytes (write buf 2 xs) 2 2 = xs := by
    have written := bytes_write buf 2 xs
    rw [two] at written
    exact written
  have payload : bytes (write buf 2 xs) 4 size = file.drop (tftpblksize * block.toNat) :=
    (bytes_write_apart (.inr (by rw [two]))).trans data
  rw [next, number, whole, dataPacket, number, tftpminsize, show 4 + size = 2 + (2 + size) from by
    omega, bytes_add, bytes_add, first,
    second, payload, List.append_assoc]

theorem Buffers.fill {file piece : List UInt8} {tf : TftpFile} {sent : List (List UInt8)}
    {k : UInt32} (buffers : Buffers file tf sent)
    (length : piece.length = k.toNat) (room : tf.stop.toNat + k.toNat ≤ tftpblksize) (foffs : UInt32) :
    Buffers (file ++ piece) { tf with
      buf := write tf.buf (tftpminsize + tf.stop.toNat) piece
      foffs
      stop := tf.stop + k } sent := by
  have stop : (tf.stop + k).toNat = tf.stop.toNat + k.toNat := by
    rw [UInt32.toNat_add]
    exact Nat.mod_eq_of_lt (lt_of_le_of_lt room (by decide))
  have whole := buffers.length
  refine ⟨buffers.mode, ?_, ?_, ?_, buffers.early, ?_⟩
  · dsimp only
    rw [stop, List.length_append, whole, length, Nat.add_assoc]
  · dsimp only
    rw [stop]
    exact room
  · dsimp only
    rw [stop, ← length, bytes_add, bytes_write_apart (.inl (Nat.le_refl _)), bytes_write, buffers.data,
      List.drop_append_of_le_length (by omega)]
  · exact buffers.sent.append (whole ▸ Nat.le_add_right _ _)

theorem Buffers.send {file : List UInt8} {tf : TftpFile} {sent : List (List UInt8)} {stack : Memory}
    {turns : List Turn} {a : Answer}
    (buffers : Buffers file tf sent) (opcode : bytes tf.buf 0 2 = bytes16 (htons tftpOpcodeData))
    (full : tf.stop.toNat = tftpblksize)
    (answered : tftpwrq { tf with
      block := tf.block + 1
      buf := write tf.buf 2 (bytes16 (htons (UInt16.ofNat (tf.block + 1).toNat))) }
        stack tftpmaxsize 0 turns = some a)
    (good : 0 ≤ a.size) :
    Buffers file { a.tf with stop := 0 } (sent ++ List.replicate a.sends
        (bytes (write tf.buf 2 (bytes16 (htons (UInt16.ofNat (tf.block + 1).toNat)))) 0 tftpmaxsize)) ∧
      bytes a.tf.buf 0 2 = bytes16 (htons tftpOpcodeData) := by
  obtain ⟨⟨port, kept⟩, some, early⟩ := tftpwrq_acked answered good
  have few : tf.block.toNat + 1 < 2^32 := lt_trans (Nat.add_lt_add_right buffers.early 1) (by decide)
  have next : (tf.block + 1).toNat = tf.block.toNat + 1 := by
    rw [UInt32.toNat_add]
    exact Nat.mod_eq_of_lt few
  have data := buffers.data
  rw [full] at data
  have packet := buffered_packet opcode few data (Nat.le_refl _)
  have whole := buffers.length
  rw [kept]
  refine ⟨⟨buffers.mode, ?_, Nat.zero_le _, ?_, early, ?_⟩, ?_⟩
  · dsimp only
    rw [next, whole, full]
    rfl
  · dsimp only
    rw [next, List.drop_of_length_le (by rw [whole, full, Nat.mul_succ])]
    rfl
  · dsimp only
    rw [show tftpmaxsize = tftpminsize + tftpblksize from rfl, packet, next]
    exact buffers.sent.next some
  · exact (bytes_write_apart (.inl (Nat.le_refl 2))).trans opcode

/-- A write under way: what it has put into the buffer, `done`, and what it has sent follow what was
    written before. -/
structure Writes (file more : List UInt8) (before : List (List UInt8)) (s : Transfer) : Prop where
  buffered : ∃ done, more = done ++ s.data ∧ Buffers (file ++ done) s.tf (before ++ s.sent)
  room : s.tf.stop.toNat < tftpblksize
  nb : s.nb.toNat = s.data.length
  opcode : bytes s.tf.buf 0 2 = bytes16 (htons tftpOpcodeData)

theorem writePass_writes {stack : Memory} {file more : List UInt8} {before : List (List UInt8)}
    {s next : Transfer}
    (passed : writePass stack s = some (.again next)) (kept : s.failures = [] → Writes file more before s) :
    next.failures = [] → Writes file more before next := by
  unfold writePass at passed
  split at passed
  · dsimp only at passed
    have n := @min_word (UInt32.ofNat tftpblksize - s.tf.stop) s.nb
    generalize min (UInt32.ofNat tftpblksize - s.tf.stop) s.nb = k at passed n
    -- the piece that is copied, with what is known of the file then
    have filled : Writes file more before s → ∃ done, more = done ++ s.data.drop k.toNat ∧
        (s.nb - k).toNat = (s.data.drop k.toNat).length ∧
        Buffers (file ++ done) { s.tf with
          buf := write s.tf.buf (tftpminsize + s.tf.stop.toNat) (s.data.take k.toNat)
          foffs := s.tf.foffs + k
          stop := s.tf.stop + k } (before ++ s.sent) ∧
        bytes (write s.tf.buf (tftpminsize + s.tf.stop.toNat) (s.data.take k.toNat)) 0 2 =
            bytes16 (htons tftpOpcodeData) := by
      intro writes
      obtain ⟨done, whole, buffers⟩ := writes.buffered
      have room : (UInt32.ofNat tftpblksize - s.tf.stop).toNat = tftpblksize - s.tf.stop.toNat :=
        word_sub (Nat.le_of_lt writes.room)
      have some := writes.room
      rw [room, writes.nb] at n
      refine ⟨done ++ s.data.take k.toNat, ?_, ?_, ?_, ?_⟩
      · rw [List.append_assoc, List.take_append_drop, whole]
      · rw [word_sub (by rw [writes.nb]; omega), List.length_drop, writes.nb]
      · rw [← List.append_assoc]
        refine buffers.fill ?_ (by omega) _
        rw [List.length_take]
        omega
      · exact (bytes_write_apart (.inl (by rw [tftpminsize]; omega))).trans writes.opcode
    split at passed
    · next full =>
      split at passed
      · cases passed
      · next a answered =>
        cases passed
        intro succeeded
        obtain ⟨fine, fresh⟩ := List.append_eq_nil_iff.mp succeeded
        have good : 0 ≤ a.size := by
          by_contra negative
          rw [failuresOf, if_pos (Int.not_le.mp negative)] at fresh
          cases fresh
        obtain ⟨done, whole, nb, buffers, opcode⟩ := filled (kept fine)
        obtain ⟨sent, opcode⟩ := buffers.send opcode (congrArg UInt32.toNat full) answered good
        exact ⟨⟨done, whole, List.append_assoc .. ▸ sent⟩, Nat.zero_lt_succ 511, nb, opcode⟩
    · next part =>
      cases passed
      intro succeeded
      obtain ⟨done, whole, nb, buffers, opcode⟩ := filled (kept succeeded)
      refine ⟨⟨done, whole, buffers⟩, ?_, nb, opcode⟩
      exact lt_of_le_of_ne buffers.room fun full => part (UInt32.toNat_inj.mp full)
  · cases passed

/-- A write that has had no failure returns its length, and what it was given is in the blocks sent
    and in the buffer. -/
theorem tftpWrite_writes {stack : Memory} {file data : List UInt8} {tf : TftpFile} {len : UInt32}
    {turns : List Turn} {r : Result}
    {before : List (List UInt8)} (call : tftpWrite stack tf len data turns = some r)
    (size : data.length = len.toNat)
    (buffers : Buffers file tf before) (room : tf.stop.toNat < tftpblksize) (succeeded : r.failures = []) :
    Buffers (file ++ data) r.tf (before ++ r.sent) ∧ r.tf.stop.toNat < tftpblksize ∧ r.ret = len := by
  unfold tftpWrite at call
  rw [if_neg (not_not.mpr buffers.mode)] at call
  split at call
  · cases call
  · next s left =>
    cases call
    have done : s.failures = [] → Writes file data before s ∧ s.nb = 0 := by
      refine loop_invariant (fun s => s.failures = [] → Writes file data before s)
        (fun s => s.failures = [] → Writes file data before s ∧ s.nb = 0)
        (fun _ _ passed kept => writePass_writes passed kept) ?_ left fun _ => ?_
      · intro s result passed kept succeeded
        have none := writePass_leave passed
        unfold writePass at passed
        split at passed
        · dsimp only at passed
          split at passed
          · split at passed <;> cases passed
          · cases passed
        · cases passed
          exact ⟨kept succeeded, none⟩
      · refine ⟨⟨[], rfl, ?_⟩, room, size.symm, bytes_write tf.buf 0 _⟩
        rw [List.append_nil, List.append_nil]
        refine { buffers with data := ?_ }
        dsimp only
        rw [bytes_write_apart (.inr (show 0 + 2 ≤ tftpminsize from by decide))]
        exact buffers.data
    obtain ⟨writes, none⟩ := done succeeded
    obtain ⟨done, whole, after⟩ := writes.buffered
    have empty : s.data = [] := List.eq_nil_of_length_eq_zero (by rw [← writes.nb, none]; rfl)
    rw [empty, List.append_nil] at whole
    subst whole
    refine ⟨after, writes.room, ?_⟩
    dsimp only
    rw [none, sub_zero]

/-- A file being written, with what the writes have returned, what has been sent and the requests
    that have failed. -/
structure Writer where
  tf : TftpFile
  rets : List UInt32
  sent : List (List UInt8)
  failures : List Failure

def Writer.write (stack : Memory) (w : Writer) (data : List UInt8) (turns : List Turn) : Option Writer :=
  match tftpWrite stack w.tf (UInt32.ofNat data.length) data turns with
  | none => none
  | some r => some ⟨r.tf, w.rets ++ [r.ret], w.sent ++ r.sent, w.failures ++ r.failures⟩

def Writer.run (stack : Memory) (w : Writer) (last : List Turn) :
    List (List UInt8 × List Turn) → Option Writer
  | [] =>
    (tftpCloseWrite stack w.tf last).map fun c =>
      { w with sent := w.sent ++ c.sent, failures := w.failures ++ c.failures }
  | (data, turns) :: rest => (w.write stack data turns).bind fun w' => w'.run stack last rest

theorem tftpCloseWrite_sends {stack : Memory} {file : List UInt8} {tf : TftpFile}
    {turns : List Turn} {c : Closing} {before : List (List UInt8)}
    (closed : tftpCloseWrite stack tf turns = some c) (buffers : Buffers file tf before)
    (room : tf.stop.toNat < tftpblksize) (succeeded : c.failures = []) :
    Transmitted file (file.length / tftpblksize + 1)
    (before ++ c.sent) ∧ file.length / tftpblksize + 1 < 2^16 := by
  unfold tftpCloseWrite at closed
  dsimp only at closed
  split at closed
  · cases closed
  · next a answered =>
    cases closed
    have good : 0 ≤ a.size := by
      by_contra negative
      rw [failuresOf, if_pos (Int.not_le.mp negative)] at succeeded
      cases succeeded
    obtain ⟨_, some, early⟩ := tftpwrq_acked answered good
    have few : tf.block.toNat + 1 < 2^32 := lt_trans (Nat.add_lt_add_right buffers.early 1) (by decide)
    have next : (tf.block + 1).toNat = tf.block.toNat + 1 := by
      rw [UInt32.toNat_add]
      exact Nat.mod_eq_of_lt few
    have data : bytes (write tf.buf 0 (bytes16 (htons tftpOpcodeData))) tftpminsize tf.stop.toNat =
        file.drop (tftpblksize * tf.block.toNat) :=
          (bytes_write_apart (.inr (show 0 + 2 ≤ tftpminsize from by decide))).trans buffers.data
    have packet := buffered_packet (bytes_write tf.buf 0 (bytes16 (htons tftpOpcodeData)))
      few data buffers.room
    have blocks : file.length / tftpblksize = tf.block.toNat := by
      rw [buffers.length, Nat.mul_add_div (by decide), Nat.div_eq_of_lt room, Nat.add_zero]
    dsimp only at early
    rw [next] at early
    rw [blocks, packet]
    exact ⟨buffers.sent.next some, early⟩

theorem Writer.run_sends {stack : Memory} {last : List Turn}
    {writes : List (List UInt8 × List Turn)} {file : List UInt8} {w w' : Writer}
    (ran : w.run stack last writes = some w') (sizes : ∀ write ∈ writes, write.1.length < 2^32)
    (succeeded : w'.failures = [])
    (start : w.failures = [] → Buffers file w.tf w.sent ∧ w.tf.stop.toNat < tftpblksize) :
    let file := file ++ writes.flatMap Prod.fst
    Transmitted file (file.length / tftpblksize + 1) w'.sent ∧ file.length / tftpblksize + 1 < 2^16 ∧
      w'.rets = w.rets ++ writes.map fun write => UInt32.ofNat write.1.length := by
  -- each step only adds failures
  have kept : ∀ {writes : List (List UInt8 × List Turn)} {w : Writer}, w.run stack last writes =
      some w' → w.failures = [] := by
    intro writes
    induction writes with
    | nil =>
      intro w ran
      obtain ⟨c, _, rfl⟩ := Option.map_eq_some_iff.mp ran
      exact (List.append_eq_nil_iff.mp succeeded).1
    | cons write rest ih =>
      intro w ran
      obtain ⟨next, wrote, later⟩ := Option.bind_eq_some_iff.mp ran
      have fine := ih later
      simp only [Writer.write] at wrote
      split at wrote
      · cases wrote
      · cases wrote
        exact (List.append_eq_nil_iff.mp fine).1
  induction writes generalizing file w with
  | nil =>
    obtain ⟨buffers, room⟩ := start (kept ran)
    obtain ⟨c, closed, rfl⟩ := Option.map_eq_some_iff.mp ran
    obtain ⟨sent, few⟩ := tftpCloseWrite_sends closed buffers room (List.append_eq_nil_iff.mp succeeded).2
    simp only [List.flatMap_nil, List.append_nil, List.map_nil]
    exact ⟨sent, few, trivial⟩
  | cons write rest ih =>
    obtain ⟨next, wrote, later⟩ := Option.bind_eq_some_iff.mp ran
    have fine := kept later
    obtain ⟨buffers, room⟩ := start (kept ran)
    simp only [Writer.write] at wrote
    split at wrote
    · cases wrote
    · next r answered =>
      cases wrote
      have size : write.1.length = (UInt32.ofNat write.1.length).toNat :=
        (UInt32.toNat_ofNat_of_lt' (sizes write List.mem_cons_self)).symm
      obtain ⟨after, room, ret⟩ := tftpWrite_writes answered size buffers room
        (List.append_eq_nil_iff.mp fine).2
      obtain ⟨sent, few, rets⟩ := ih later (fun write member =>
        sizes write (List.mem_cons_of_mem _ member)) fun _ => ⟨after, room⟩
      rw [List.append_assoc] at sent few
      rw [List.flatMap_cons]
      refine ⟨sent, few, rets.trans ?_⟩
      rw [ret, List.append_assoc]
      rfl

theorem dataPacket_honest {file : List UInt8} {n : Nat} (early : n < 2^16) {d : Datagram}
    (sent : d.data = dataPacket n (fileBlock file n)) :
    Honest file d := by
  intro long _ _
  have held : bytes (write (fun _ => 0) 0 d.data) 2 2 = bytes16 (htons (UInt16.ofNat n)) := by
    have whole := bytes_write (fun _ => 0) 0 d.data
    rw [tftpminsize] at long
    have middle := congrArg (fun l => (l.drop 2).take 2) whole
    rw [bytes_drop _ (by omega), bytes_take _ (by omega), sent] at middle
    rw [sent]
    exact middle
  have number : d.number = UInt16.ofNat n := by
    rw [Datagram.number, get16_of_bytes held]
    exact swap16_swap16 _
  rw [number, UInt16.toNat_ofNat_of_lt' early, sent]
  rfl

theorem fileBlocks_concat (file : List UInt8) (n : Nat) :
    (List.range n).flatMap (fun k => fileBlock file (k + 1)) = file.take (tftpblksize * n) := by
  induction n with
  | zero => rfl
  | succ n ih =>
    rw [List.range_succ, List.flatMap_append, ih, List.flatMap_singleton, fileBlock,
      Nat.add_sub_cancel, take_append_take_drop]
    rfl

/-- Whatever is written in any pieces, and the file closed, is sent as DATA packets with the numbers
    1, 2, and so on, each as often as it took, all of them full but the last, and put together they
    are what was written. A transfer without a failure has fewer than 65536 packets, and its packets
    are what a reader can be served with. -/
theorem writes_send_file (stack : Memory) (port : UInt16) (pktsize : Nat)
    (turns rest last : List Turn) (tf : TftpFile) (writes : List (List UInt8 × List Turn))
    (w : Writer) (opened : tftpOpenWrite port stack pktsize turns = some (some (tf, rest)))
    (sizes : ∀ write ∈ writes, write.1.length < 2^32)
    (ran : Writer.run stack ⟨tf, [], [], []⟩ last writes = some w) (succeeded : w.failures = []) :
    let file := writes.flatMap Prod.fst
    let n := file.length / tftpblksize
    Transmitted file (n + 1) w.sent ∧ n + 1 < 2^16 ∧
      (w.rets = writes.map fun write => UInt32.ofNat write.1.length) ∧
      (∀ k < n, (fileBlock file (k + 1)).length = tftpblksize) ∧
        (fileBlock file (n + 1)).length < tftpblksize ∧
      (List.range (n + 1)).flatMap (fun k => fileBlock file (k + 1)) = file ∧
          ∀ d : Datagram, d.data ∈ w.sent → Honest file d := by
  have start : Buffers [] tf [] ∧ tf.stop.toNat < tftpblksize := by
    unfold tftpOpenWrite at opened
    dsimp only at opened
    split at opened
    · cases opened
    · next a answered =>
      split at opened
      · next good =>
        cases opened
        obtain ⟨⟨port, same⟩, _, _⟩ := tftpwrq_acked answered good
        rw [same]
        exact ⟨⟨rfl, rfl, Nat.zero_le _, rfl, Nat.zero_lt_succ _, fun _ => 1, fun _ _ =>
          Nat.le_refl 1, rfl⟩, Nat.zero_lt_succ _⟩
      · cases opened
  obtain ⟨sent, few, rets⟩ := Writer.run_sends ran sizes succeeded fun _ => start
  rw [List.nil_append] at sent few
  rw [List.nil_append] at rets
  generalize writes.flatMap Prod.fst = file at sent few
  have whole := Nat.div_add_mod file.length tftpblksize
  have less : file.length % tftpblksize < tftpblksize := Nat.mod_lt _ (by decide)
  refine ⟨sent, few, rets, fun k full => ?_, ?_, ?_, fun d member => ?_⟩
  · have := Nat.mul_le_mul_left tftpblksize full
    rw [fileBlock_length, Nat.add_sub_cancel, Nat.min_eq_left]
    rw [Nat.mul_succ] at this
    omega
  · rw [fileBlock_length, Nat.add_sub_cancel]
    omega
  · rw [fileBlocks_concat, List.take_of_length_le]
    rw [Nat.mul_succ]
    omega
  · obtain ⟨times, _, all⟩ := sent
    rw [all] at member
    obtain ⟨k, inside, packet⟩ := List.mem_flatMap.mp member
    exact dataPacket_honest (lt_of_le_of_lt (List.mem_range.mp inside) few) (List.eq_of_mem_replicate packet)

def ackRequest : Datagram := ⟨1069, [0, 4, 0, 0], by decide⟩
def ackFirst : Datagram := ⟨1069, [0, 4, 0, 1], by decide⟩

theorem writes_send_file_twice : ∃ tf w,
    tftpOpenWrite 69 (fun _ => 0) 20 [⟨true, some ackRequest⟩] = some (some (tf, [])) ∧
    Writer.run (fun _ => 0) ⟨tf, [], [], []⟩ [⟨true, none⟩, ⟨true, some ackFirst⟩]
    [([7, 8], []), ([9], [])] = some w ∧
    w.sent = [dataPacket 1 [7, 8, 9], dataPacket 1 [7, 8, 9]] ∧ ∀ d : Datagram, d.data ∈ w.sent →
      Honest [7, 8, 9] d := by
  have both : ∃ tf w, tftpOpenWrite 69 (fun _ => 0) 20 [⟨true, some ackRequest⟩] = some (some (tf, [])) ∧
      Writer.run (fun _ => 0) ⟨tf, [], [], []⟩ [⟨true, none⟩, ⟨true, some ackFirst⟩]
        [([7, 8], []), ([9], [])] = some w ∧
        w.failures = [] ∧ w.sent = [dataPacket 1 [7, 8, 9], dataPacket 1 [7, 8, 9]] :=
          ⟨_, _, rfl, rfl, rfl, rfl⟩
  obtain ⟨tf, w, opened, ran, succeeded, sent⟩ := both
  have small : ∀ write ∈ [([7, 8], []), ([9], ([] : List Turn))], (write.1 : List UInt8).length < 2^32 := by
    intro write member
    rcases List.mem_pair.mp member with rfl | rfl <;> decide
  exact ⟨tf, w, opened, ran, sent,
    (writes_send_file (fun _ => 0) 69 20 _ [] _ tf _ w opened small ran succeeded).2.2.2.2.2.2⟩

end Embryo.Fs.Tftp
