import Embryo.Sock.Accounting

namespace Embryo.Sock

open Embryo.Machine Embryo.Uipc
open Embryo.Kmem (Arena)

variable {A : Arena} {P P' : Pool} {others : List Mbuf} {m : Mbuf} {next nextpkt : Ptr} {s : Receiving}
  {type : Nat} {goal : List UInt8} {excess : Prop} {before : Pool}

structure Uio.Valid (uio : Uio) : Prop where
  room : uio.resid ≤ uio.iov.sum
  small : uio.resid < 2^32

theorem uiomoveLoop_eq (mem : Memory) {iov : List Nat} {cp len resid : Nat} {moved : List UInt8}
    (room : len ≤ iov.sum) (bound : len ≤ resid) (small : resid < 2^32) :
    ∃ iov', uiomoveLoop mem iov cp len resid moved = ⟨iov', resid - len, moved ++ bytes mem cp len⟩ ∧
      iov'.sum + len = iov.sum := by
  induction iov generalizing cp len resid moved with
  | nil =>
    have none : len = 0 := Nat.le_zero.mp room
    subst none
    exact ⟨[], by simp [uiomoveLoop, bytes], rfl⟩
  | cons l iov ih =>
    rw [List.sum_cons] at room
    by_cases none : len = 0
    · subst none
      exact ⟨l :: iov, by simp [uiomoveLoop, bytes], rfl⟩
    · have left : wsub resid (min len l) = resid - min len l := wsub_of_le (by omega) small
      have go : ¬ (len = 0 ∨ resid = 0) := by omega
      rw [uiomoveLoop, if_neg go]
      dsimp only
      rw [left]
      by_cases last : len ≤ l
      · rw [Nat.min_eq_left last, if_pos (by omega)]
        exact ⟨(l - len) :: iov, rfl, by simp only [List.sum_cons]; omega⟩
      · rw [Nat.min_eq_right (by omega), if_neg (by omega)]
        obtain ⟨iov', moves, rest⟩ := @ih (cp + l) (len - l) (resid - l) (moved ++ bytes mem cp l)
          (by omega) (by omega) (by omega)
        refine ⟨iov', ?_, by rw [List.sum_cons]; omega⟩
        have split : len = l + (len - l) := by omega
        rw [moves, List.append_assoc, ← bytes_add, ← split]
        congr 1
        omega

theorem uiomove_eq (mem : Memory) {uio : Uio} {cp len : Nat} (valid : uio.Valid) (bound : len ≤ uio.resid) :
    ∃ iov, uiomove mem cp len uio = (0, ⟨iov, uio.resid - len, uio.moved ++ bytes mem cp len⟩) ∧
      Uio.Valid ⟨iov, uio.resid - len, uio.moved ++ bytes mem cp len⟩ := by
  have room := valid.room
  have small := valid.small
  obtain ⟨iov, moves, sum⟩ := @uiomoveLoop_eq mem uio.iov cp len uio.resid uio.moved (by omega) bound small
  refine ⟨iov, by rw [uiomove, moves], ⟨?_, ?_⟩⟩
  · show uio.resid - len ≤ iov.sum
    omega
  · show uio.resid - len < 2^32
    omega

/-- A chain the loop over the data goes through: out of band altogether or not at all, and with no
    byte behind an mbuf that is marked as the last. -/
def Streams (type : Nat) : Chain → Prop
  | [] => True
  | m :: rest => (type = mtOobdata ↔ m.type = mtOobdata) ∧ (m.flags.eor = true → total rest = 0) ∧
      Streams type rest

structure Drawing (A : Arena) (others : List Mbuf) (type : Nat) (goal : List UInt8) (excess : Prop)
    (before : Pool) (nextpkt : Ptr) (s : Receiving) : Prop where
  wf : Wf A s.pool (s.m.chain ++ others)
  fits : ∀ e ∈ s.m.chain, e.Fit
  streams : Streams type s.m.chain
  calm : Calm before s.pool others
  first : s.so.rcvsb.mb = s.m
  link : s.m.setNextpkt nextpkt = s.m
  next : s.nextpkt = nextpkt
  plain : s.flags.peek = false ∧ s.flags.eor = false
  still : s.moff = 0 ∧ s.so.oobmark = 0 ∧ s.uioErr = 0 ∧ s.mp = []
  uio : s.uio.Valid
  moved : s.uio.moved ++ (flatten s.pool.mem s.m.chain).take s.uio.resid = goal
  short : excess → s.uio.resid < total s.m.chain

structure Drawn (A : Arena) (others : List Mbuf) (goal : List UInt8) (excess : Prop) (before : Pool)
    (nextpkt : Ptr) (s : Receiving) : Prop where
  wf : Wf A s.pool (s.m.chain ++ others)
  calm : Calm before s.pool others
  first : s.so.rcvsb.mb = s.m
  link : s.m.setNextpkt nextpkt = s.m
  next : s.nextpkt = nextpkt
  plain : s.flags.peek = false
  still : s.so.oobmark = 0 ∧ s.uioErr = 0 ∧ s.mp = []
  moved : s.uio.moved = goal
  short : excess → s.m ≠ .null

theorem Drawing.done (drawing : Drawing A others type goal excess before nextpkt s)
    (finished : s.uio.resid = 0 ∨ s.m = .null) : Drawn A others goal excess before nextpkt s where
  wf := drawing.wf
  calm := drawing.calm
  first := drawing.first
  link := drawing.link
  next := drawing.next
  plain := drawing.plain.1
  still := ⟨drawing.still.2.1, drawing.still.2.2⟩
  moved := by
    rw [← drawing.moved]
    rcases finished with none | empty
    · rw [none, List.take_zero, List.append_nil]
    · rw [empty]
      show _ = _ ++ List.take _ []
      rw [List.take_nil, List.append_nil]
  short := by
    intro more empty
    have := drawing.short more
    rw [empty] at this
    exact Nat.not_lt_zero _ this

theorem Drawing.data_lt (drawing : Drawing A others type goal excess before nextpkt s)
    (first : s.m = .mbuf m next nextpkt) : m.data < 2^32 ∧ m.len < 2^32 ∧ m.data + m.len < 2^32 := by
  have member : m ∈ s.m.chain := by rw [first]; exact List.mem_cons_self
  have fit := drawing.fits m member
  have below := drawing.wf.room_lt (List.mem_append_left others member)
  simp only [Mbuf.Fit] at fit
  omega

theorem Drawing.passLen_eq (drawing : Drawing A others type goal excess before nextpkt s)
    (first : s.m = .mbuf m next nextpkt) :
    passLen s m = min s.uio.resid m.len ∧ wsub m.len s.moff = m.len := by
  have small := (drawing.data_lt first).2.1
  have whole : wsub m.len s.moff = m.len := by
    rw [drawing.still.1, wsub_of_le (Nat.zero_le _) small, Nat.sub_zero]
  refine ⟨?_, whole⟩
  simp only [passLen, drawing.still.2.1, ne_eq, not_true_eq_false, false_and, if_false, whole]

theorem Drawing.move (drawing : Drawing A others type goal excess before nextpkt s)
    (first : s.m = .mbuf m next nextpkt) {len : Nat} (bound : len ≤ s.uio.resid) :
    ∃ iov, passMove false s m len = { s with
        so := { s.so with rcvatmark := false }
        uio := ⟨iov, s.uio.resid - len, s.uio.moved ++ bytes s.pool.mem m.data len⟩ } ∧
      Uio.Valid ⟨iov, s.uio.resid - len, s.uio.moved ++ bytes s.pool.mem m.data len⟩ := by
  obtain ⟨moff, _, uioErr, _⟩ := drawing.still
  obtain ⟨iov, moves, valid⟩ := @uiomove_eq s.pool.mem s.uio m.data len drawing.uio bound
  have here : wrap (m.data + s.moff) = m.data := by
    rw [moff, Nat.add_zero, wrap_of_lt (drawing.data_lt first).1]
  refine ⟨iov, ?_, valid⟩
  simp only [passMove, Bool.false_eq_true, not_false_eq_true, uioErr, and_self, if_true, here, moves, ne_eq,
    not_true_eq_false, if_false]

theorem Drawing.first_bytes (drawing : Drawing A others type goal excess before nextpkt s)
    (first : s.m = .mbuf m next nextpkt) (whole : m.len ≤ s.uio.resid) :
    s.uio.moved ++ bytes s.pool.mem m.data m.len ++
      (flatten s.pool.mem next.chain).take (s.uio.resid - m.len) = goal := by
  have moved := drawing.moved
  rw [first, Ptr.chain, flatten_cons, List.take_append, bytes_length,
    List.take_of_length_le (by rw [bytes_length]; exact whole)] at moved
  rw [List.append_assoc, moved]

/-- The variables after a pass that has taken all of `m`. -/
def afterWhole (s : Receiving) (P : Pool) (uio : Uio) (m : Mbuf) (next nextpkt : Ptr) : Receiving :=
  { s with
    pool := P
    so := { s.so with
      rcvatmark := false
      rcvsb := { sbfree s.so.rcvsb m with mb := next.setNextpkt nextpkt } }
    uio := uio
    m := next.setNextpkt nextpkt
    nextpkt := nextpkt
    mp := s.mp ++ []
    flags := { s.flags with eor := s.flags.eor || m.flags.eor } }

theorem Drawing.whole_eq (drawing : Drawing A others type goal excess before nextpkt s)
    (first : s.m = .mbuf m next nextpkt) (wanted : s.uio.resid ≠ 0) (whole : m.len ≤ s.uio.resid)
    (freed : mbufFree A s.pool m = some P') :
    ∃ iov, Uio.Valid ⟨iov, s.uio.resid - m.len, s.uio.moved ++ bytes s.pool.mem m.data m.len⟩ ∧
      receivePass A false type s =
        let s' := afterWhole s P' ⟨iov, s.uio.resid - m.len, s.uio.moved ++ bytes s.pool.mem m.data m.len⟩
          m next nextpkt
        some (if m.flags.eor then .leave s' else .again s') := by
  obtain ⟨len, wholeLen⟩ := drawing.passLen_eq first
  rw [Nat.min_eq_right whole] at len
  obtain ⟨iov, moves, valid⟩ := drawing.move first whole
  have streams := drawing.streams
  rw [first, Ptr.chain] at streams
  refine ⟨iov, valid, ?_⟩
  simp only [receivePass, first, wanted, if_false, streams.1, iff_self, not_true_eq_false, len, moves,
    passTake, wholeLen, if_true, passWhole, drawing.plain.1, Bool.false_eq_true, unlink, freed, passEnd,
    Socket.setRcvsb, drawing.still.2.1, ne_eq, drawing.plain.2, Bool.false_or, afterWhole]

theorem Drawing.pass_whole (drawing : Drawing A others type goal excess before nextpkt s)
    (first : s.m = .mbuf m next nextpkt) (wanted : s.uio.resid ≠ 0) (whole : m.len ≤ s.uio.resid) :
    (∃ s', receivePass A false type s = some (.again s') ∧
        Drawing A others type goal excess before nextpkt s' ∧ s'.m.chain = next.chain) ∨
      ∃ s', receivePass A false type s = some (.leave s') ∧ Drawn A others goal excess before nextpkt s' := by
  have wf := drawing.wf
  have fits := drawing.fits
  have streams := drawing.streams
  have short := drawing.short
  rw [first, Ptr.chain] at wf fits streams short
  rw [List.cons_append] at wf
  obtain ⟨P', freed, wf', result⟩ := wf.free
  obtain ⟨iov, valid, passed⟩ := drawing.whole_eq first wanted whole freed
  have calm := drawing.calm.trans (result.calm.mono (fun e member => List.mem_append_right _ member))
    (fun _ member => member)
  have link : (next.setNextpkt nextpkt).setNextpkt nextpkt = next.setNextpkt nextpkt := by cases next <;> rfl
  have fitsRest : ∀ e ∈ next.chain, e.Fit := fun e member => fits e (List.mem_cons_of_mem _ member)
  have kept : flatten P'.mem next.chain = flatten s.pool.mem next.chain :=
    result.calm.flatten_eq (fun e member => List.mem_append_left _ member) fitsRest
  have bytes := drawing.first_bytes first whole
  have nothing : s.mp ++ [] = [] := by rw [drawing.still.2.2.2, List.append_nil]
  rw [total_cons] at short
  cases ends : m.flags.eor with
  | true =>
    right
    rw [ends] at passed
    refine ⟨_, passed, ?_⟩
    have none : total next.chain = 0 := streams.2.1 ends
    constructor
    · simpa only [afterWhole, Ptr.chain_setNextpkt] using wf'
    · exact calm
    · rfl
    · exact link
    · rfl
    · exact drawing.plain.1
    · exact ⟨drawing.still.2.1, drawing.still.2.2.1, nothing⟩
    · rw [List.eq_nil_of_length_eq_zero
        (by rw [flatten_length, none] : (flatten s.pool.mem next.chain).length = 0),
        List.take_nil, List.append_nil] at bytes
      exact bytes
    · intro more
      have := short more
      omega
  | false =>
    left
    rw [ends] at passed
    refine ⟨_, passed, ?_, Ptr.chain_setNextpkt _ _⟩
    constructor
    · simpa only [afterWhole, Ptr.chain_setNextpkt] using wf'
    · simpa only [afterWhole, Ptr.chain_setNextpkt] using fitsRest
    · simpa only [afterWhole, Ptr.chain_setNextpkt] using streams.2.2
    · exact calm
    · rfl
    · exact link
    · rfl
    · simpa only [afterWhole, ends, Bool.or_false] using drawing.plain
    · exact ⟨drawing.still.1, drawing.still.2.1, drawing.still.2.2.1, nothing⟩
    · exact valid
    · simp only [afterWhole, Ptr.chain_setNextpkt, kept]
      exact bytes
    · intro more
      have := short more
      simp only [afterWhole, Ptr.chain_setNextpkt]
      omega

def advanced (m : Mbuf) (len : Nat) : Mbuf :=
  { m with data := wrap (m.data + len), len := wsub m.len len }

theorem Drawing.part_eq (drawing : Drawing A others type goal excess before nextpkt s)
    (first : s.m = .mbuf m next nextpkt) (wanted : s.uio.resid ≠ 0) (part : s.uio.resid < m.len) :
    ∃ iov, Uio.Valid ⟨iov, 0, s.uio.moved ++ bytes s.pool.mem m.data s.uio.resid⟩ ∧
      receivePass A false type s = some (.again { s with
        so := { s.so with
          rcvatmark := false
          rcvsb := { s.so.rcvsb with
            cc := wsub s.so.rcvsb.cc s.uio.resid
            mb := .mbuf (advanced m s.uio.resid) next nextpkt } }
        uio := ⟨iov, 0, s.uio.moved ++ bytes s.pool.mem m.data s.uio.resid⟩
        m := .mbuf (advanced m s.uio.resid) next nextpkt
        mp := s.mp ++ [] }) := by
  obtain ⟨len, wholeLen⟩ := drawing.passLen_eq first
  rw [Nat.min_eq_left (Nat.le_of_lt part)] at len
  obtain ⟨iov, moves, valid⟩ := drawing.move first (Nat.le_refl _)
  rw [Nat.sub_self] at moves valid
  have streams := drawing.streams
  rw [first, Ptr.chain] at streams
  have different : s.uio.resid ≠ m.len := Nat.ne_of_lt part
  refine ⟨iov, valid, ?_⟩
  simp only [receivePass, first, wanted, if_false, streams.1, iff_self, not_true_eq_false, len, moves,
    passTake, wholeLen, different, passPart, drawing.plain.1, Bool.false_eq_true, passEnd,
    Socket.setRcvsb, drawing.still.2.1, ne_eq, drawing.plain.2, advanced]

theorem Drawing.pass_part (drawing : Drawing A others type goal excess before nextpkt s)
    (first : s.m = .mbuf m next nextpkt) (wanted : s.uio.resid ≠ 0) (part : s.uio.resid < m.len) :
    ∃ s', receivePass A false type s = some (.again s') ∧
      Drawing A others type goal excess before nextpkt s' ∧ s'.m.chain.length = s.m.chain.length ∧
      s'.uio.resid = 0 := by
  have below := drawing.data_lt first
  have wf := drawing.wf
  have fits := drawing.fits
  have streams := drawing.streams
  have moved := drawing.moved
  rw [first, Ptr.chain] at wf fits streams moved
  rw [List.cons_append] at wf
  obtain ⟨iov, valid, passed⟩ := drawing.part_eq first wanted part
  have data : (advanced m s.uio.resid).data = m.data + s.uio.resid := wrap_of_lt (by omega)
  have len : (advanced m s.uio.resid).len = m.len - s.uio.resid := wsub_of_le (Nat.le_of_lt part) below.2.1
  refine ⟨_, passed, ?_, by rw [first]; rfl, rfl⟩
  constructor
  · exact wf.adjust rfl rfl rfl (fun _ => rfl)
  · intro e member
    rcases List.mem_cons.mp member with rfl | member
    · have fit := fits m List.mem_cons_self
      show m.room.addr ≤ _ ∧ _ ≤ m.room.stop
      rw [data, len]
      simp only [Mbuf.Fit] at fit
      omega
    · exact fits e (List.mem_cons_of_mem _ member)
  · exact streams
  · exact drawing.calm
  · rfl
  · rfl
  · exact drawing.next
  · exact drawing.plain
  · refine ⟨drawing.still.1, drawing.still.2.1, drawing.still.2.2.1, ?_⟩
    show s.mp ++ [] = []
    rw [drawing.still.2.2.2, List.append_nil]
  · exact valid
  · rw [← moved, flatten_cons, List.take_append_of_le_length (by rw [bytes_length]; omega),
      bytes_take _ (Nat.le_of_lt part)]
    exact List.append_nil _
  · intro _
    show 0 < total (_ :: next.chain)
    rw [total_cons, len]
    omega

def Receiving.ahead (s : Receiving) : Nat := s.m.chain.length + if s.uio.resid = 0 then 0 else 1

theorem Drawing.pass (drawing : Drawing A others type goal excess before nextpkt s) :
    (∃ s', receivePass A false type s = some (.again s') ∧
        Drawing A others type goal excess before nextpkt s' ∧ s'.ahead < s.ahead) ∨
      ∃ s', receivePass A false type s = some (.leave s') ∧ Drawn A others goal excess before nextpkt s' := by
  cases first : s.m with
  | null => exact .inr ⟨s, by simp only [receivePass, first], drawing.done (.inr first)⟩
  | mbuf m next after =>
    have link := drawing.link
    rw [first, Ptr.setNextpkt] at link
    injection link with _ _ same
    subst same
    by_cases none : s.uio.resid = 0
    · exact .inr ⟨s, by simp only [receivePass, first, none, if_true], drawing.done (.inl none)⟩
    · have length : s.m.chain.length = next.chain.length + 1 := by rw [first]; rfl
      by_cases whole : m.len ≤ s.uio.resid
      · rcases drawing.pass_whole first none whole with ⟨s', passed, drawing', chain⟩ | left
        · refine .inl ⟨s', passed, drawing', ?_⟩
          rw [Receiving.ahead, Receiving.ahead, chain, if_neg none, length]
          split <;> omega
        · exact .inr left
      · obtain ⟨s', passed, drawing', chain, done⟩ := drawing.pass_part first none (by omega)
        refine .inl ⟨s', passed, drawing', ?_⟩
        rw [Receiving.ahead, Receiving.ahead, chain, if_neg none, if_pos done]
        omega

theorem Drawing.loop (drawing : Drawing A others type goal excess before nextpkt s) :
    ∃ fuel s', loop (receivePass A false type) fuel s = some s' ∧
      Drawn A others goal excess before nextpkt s' := by
  obtain ⟨s', looped, drawn⟩ := loop_variant (Drawing A others type goal excess before nextpkt)
    Receiving.ahead (Drawn A others goal excess before nextpkt) (fun _ drawing => drawing.pass)
    (s.ahead + 1) s drawing (Nat.lt_succ_self _)
  exact ⟨_, s', looped, drawn⟩

theorem dropChain_eq {c : Chain} (wf : Wf A P (c ++ others)) (sb : Sockbuf) :
    ∃ P', dropChain A c P sb = some (P', c.foldl sbfree sb) ∧ Wf A P' others ∧ Calm P P' others := by
  induction c generalizing P sb with
  | nil => exact ⟨P, rfl, wf, Calm.refl P others⟩
  | cons m c ih =>
    obtain ⟨P₁, freed, wf₁, result⟩ := wf.free
    obtain ⟨P₂, dropped, wf₂, calm⟩ := ih wf₁ (sbfree sb m)
    refine ⟨P₂, ?_, wf₂, (result.calm.mono ?_).trans calm (fun _ member => member)⟩
    · simp only [dropChain, freed]
      exact dropped
    · exact fun _ member => List.mem_append_right _ member

theorem foldl_sbfree_mb (c : Chain) (sb : Sockbuf) : (c.foldl sbfree sb).mb = sb.mb := by
  induction c generalizing sb with
  | nil => rfl
  | cons m c ih => exact ih (sbfree sb m)

/-- A record has been received: `goal` is what the user got of it, and the queue starts with the
    next one. -/
structure Taken (A : Arena) (others : List Mbuf) (goal : List UInt8) (excess : Prop) (before : Pool)
    (nextpkt : Ptr) (r : Received) : Prop where
  wf : Wf A r.pool others
  calm : Calm before r.pool others
  mb : r.so.rcvsb.mb = nextpkt
  oobmark : r.so.oobmark = 0
  err : r.err = 0
  mp : r.mp = []
  moved : r.uio.moved = goal
  trunc : excess → r.flags.trunc = true

theorem Drawn.ends (drawn : Drawn A others goal excess before nextpkt s) (req : Request)
    (addr control : Chain) :
    ∃ r, receiveEnd A req addr control s = some (.returns r) ∧ r.addr = addr ∧ r.control = control ∧
      Taken A others goal excess before nextpkt r := by
  obtain ⟨oobmark, uioErr, mp⟩ := drawn.still
  have wf := drawn.wf
  have link := drawn.link
  cases first : s.m with
  | null =>
    rw [first] at wf
    simp only [receiveEnd, first, drawn.plain, Bool.false_eq_true, if_false]
    refine ⟨_, rfl, rfl, rfl, ⟨wf, drawn.calm, drawn.next, oobmark, uioErr, mp, drawn.moved, ?_⟩⟩
    intro more
    exact absurd first (drawn.short more)
  | mbuf m next after =>
    rw [first, Ptr.setNextpkt] at link
    injection link with _ _ same
    subst same
    rw [first] at wf
    obtain ⟨P', dropped, wf', calm⟩ := dropChain_eq wf { s.so.rcvsb with mb := nextpkt }
    have record : sbdroprecord A s.pool s.so.rcvsb =
        some (P', (m :: next.chain).foldl sbfree { s.so.rcvsb with mb := nextpkt }) := by
      simp only [sbdroprecord, drawn.first, first]
      exact dropped
    simp only [receiveEnd, first, drawn.plain, Bool.false_eq_true, if_false, record]
    refine ⟨_, rfl, rfl, rfl, ⟨wf', drawn.calm.trans calm (fun _ member => member), ?_, oobmark, uioErr, mp,
      drawn.moved, ?_⟩⟩
    · exact foldl_sbfree_mb _ _
    · intro _
      simp [MsgFlags.or]

def kind : Chain → Nat
  | [] => 0
  | m :: _ => m.type

structure Readable (data : Chain) : Prop where
  control : ∀ m ∈ data.head?, m.type ≠ mtControl
  streams : Streams (kind data) data

theorem dataType_eq (p : Ptr) : dataType p = kind p.chain := by
  cases p <;> rfl

theorem Readable.takeControl {p : Ptr} (readable : Readable p.chain) (wanted peek : Bool) (P : Pool)
    (sb : Sockbuf) (hook : Hook) : takeControl A wanted peek p P sb hook = some (p, P, sb, hook) := by
  cases p with
  | null => rfl
  | mbuf m next nextpkt =>
    have other : m.type ≠ mtControl := readable.control m rfl
    rw [Sock.takeControl, if_pos other]

variable {so : Socket} {req : Request} {flags : MsgFlags}

theorem Readable.drawing (readable : Readable next.chain) (wf : Wf A P (next.chain ++ others))
    (fits : ∀ e ∈ next.chain, e.Fit) (calm : Calm before P others)
    (plain : flags.peek = false ∧ flags.eor = false) (valid : req.uio.Valid) (oobmark : so.oobmark = 0)
    (sb : Sockbuf) :
    Drawing A others (dataType next) (req.uio.moved ++ (flatten P.mem next.chain).take req.uio.resid)
      (req.uio.resid < total next.chain) before nextpkt
      (receiveStart P so sb req.uio flags next nextpkt) := by
  obtain ⟨peek, eor⟩ := about_kept flags next
  have link : (next.setNextpkt nextpkt).setNextpkt nextpkt = next.setNextpkt nextpkt := by cases next <;> rfl
  simp only [receiveStart, plain.1, Bool.false_eq_true, if_false]
  constructor
  · simpa only [Ptr.chain_setNextpkt] using wf
  · simpa only [Ptr.chain_setNextpkt] using fits
  · simpa only [Ptr.chain_setNextpkt, dataType_eq] using readable.streams
  · exact calm
  · rfl
  · exact link
  · rfl
  · exact ⟨peek.trans plain.1, eor.trans plain.2⟩
  · exact ⟨rfl, oobmark, rfl, rfl⟩
  · exact valid
  · simp only [Ptr.chain_setNextpkt]
  · simp only [Ptr.chain_setNextpkt, imp_self]

theorem receiveRecord_takes (readable : Readable next.chain) (wf : Wf A P (m :: (next.chain ++ others)))
    (fits : ∀ e ∈ next.chain, e.Fit) (plain : flags.peek = false ∧ flags.eor = false) (valid : req.uio.Valid)
    (oobmark : so.oobmark = 0) (uioOnly : req.mp0 = false) :
    ∃ fuel r, receiveRecord A fuel P so req flags m next nextpkt = some (.returns r) ∧
      r.addr = (if req.addrp then [m] else []) ∧ r.control = [] ∧
      Taken A (r.addr ++ others) (req.uio.moved ++ (flatten P.mem next.chain).take req.uio.resid)
        (req.uio.resid < total next.chain) P nextpkt r := by
  cases wanted : req.addrp with
  | true =>
    have moved : Wf A P (next.chain ++ m :: others) := wf.perm List.perm_middle.symm
    have drawing := @Readable.drawing A P (m :: others) next nextpkt P so req flags readable moved fits
      (Calm.refl P _) plain valid oobmark { sbfree so.rcvsb m with mb := next }
    obtain ⟨fuel, s, looped, drawn⟩ := drawing.loop
    obtain ⟨r, ended, addr, control, taken⟩ := drawn.ends req [m] []
    refine ⟨fuel, r, ?_, by rw [addr]; rfl, control, by rw [addr]; exact taken⟩
    simp only [receiveRecord, takeFirst, plain.1, wanted, unlink, if_true, Bool.false_eq_true, if_false,
      readable.takeControl, uioOnly, looped, List.append_nil]
    exact ended
  | false =>
    obtain ⟨P₁, freed, wf₁, result⟩ := wf.free
    have kept : flatten P₁.mem next.chain = flatten P.mem next.chain :=
      result.calm.flatten_eq (fun e member => List.mem_append_left _ member) fits
    have drawing := @Readable.drawing A P₁ others next nextpkt P so req flags readable wf₁ fits
      (result.calm.mono (fun _ member => List.mem_append_right _ member)) plain valid oobmark
      { sbfree so.rcvsb m with mb := next }
    obtain ⟨fuel, s, looped, drawn⟩ := drawing.loop
    obtain ⟨r, ended, addr, control, taken⟩ := drawn.ends req [] []
    rw [kept] at taken
    refine ⟨fuel, r, ?_, by rw [addr]; rfl, control, by rw [addr]; exact taken⟩
    simp only [receiveRecord, takeFirst, plain.1, wanted, unlink, Bool.false_eq_true, if_false, freed,
      readable.takeControl, uioOnly, looped, List.append_nil]
    exact ended

end Embryo.Sock
