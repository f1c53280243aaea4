import Embryo.Drivers.Stmmac
import Embryo.Uipc.Buffers
import Embryo.Uipc.Header

namespace Embryo.Drivers

open Embryo.Machine Embryo.Uipc
open Embryo.Kmem (Arena kmemMalloc)

def ebusy : Nat := 16
def enobufs : Nat := 55

structure Pkt where
  first : Mbuf
  rest : Chain

namespace Pkt

def chain (m : Pkt) : Chain := m.first :: m.rest

def mpLen (m : Pkt) : Nat := m.first.pkthdr.mpLen

def Whole (m : Pkt) : Prop := m.mpLen = total m.chain ∧ ∀ e ∈ m.chain, e.Fit

end Pkt

/-- A packet that has been given to the hardware, with its descriptor and the bytes of its buffer then. -/
structure Handed where
  packet : Pkt
  desc : TxDesc
  data : List UInt8

structure Sending where
  pool : Pool
  dev : Stmmac
  sndq : List Pkt
  handed : List Handed

/-- A packet is copied to a new buffer and freed. The buffer is `NULL` when there is no memory for it. -/
def copyOff (A : Arena) (P : Pool) (m : Pkt) : Option (Nat × Pool) :=
  let (buf, kmem) := kmemMalloc A P.kmem m.mpLen
  if buf = 0 then some (0, { P with kmem })
  else
    let mem := (mbufCopydata P.mem m.chain 0 m.mpLen buf).mem
    (mbufFreem A { P with kmem, mem } m.chain).map fun P => (buf, P)

def xmitPass (A : Arena) (r : Ring) (t : Sending) : Option (Pass Sending (Nat × Sending)) :=
  match t.sndq with
  | [] => some (.leave (0, t))
  | m :: sndq =>
    let t := { t with sndq }
    if r.txAvail t.dev = 0 then some (.leave (ebusy, t))
    else if m.mpLen > r.bufsize then some (.leave (enobufs, t))
    else
      let entry := t.dev.cur % r.txRingSz
      match copyOff A t.pool m with
      | none => none
      | some (buf, pool) =>
        if buf = 0 then
          let dev := { t.dev with
            buf := Function.update t.dev.buf entry none
            clobbered := t.dev.clobbered || (t.dev.buf entry).isSome }
          some (.leave (enobufs, { t with pool, dev }))
        else
          let dev := r.place t.dev m.mpLen
          let handed := t.handed ++ [⟨m, dev.desc entry, bytes pool.mem buf m.mpLen⟩]
          some (.again { t with pool, dev, handed })

def stmmacXmit (A : Arena) (r : Ring) (t : Sending) : Option (Nat × Sending) :=
  loop (xmitPass A r) (t.sndq.length + 1) t

/-- A pass of the loop of `ether_flush_if_sndq`. -/
def flushPass (A : Arena) (r : Ring) (t : Sending) : Option (Pass Sending Sending) :=
  if t.sndq = [] then some (.leave t) else (stmmacXmit A r t).map fun result => .again result.2

def etherFlushIfSndq (A : Arena) (r : Ring) (t : Sending) : Option Sending :=
  loop (flushPass A r) (t.sndq.length + 1) t

def mbufs (packets : List Pkt) : List Mbuf := packets.flatMap Pkt.chain

/-- The packets taken from the queue have been freed once each; those given to the hardware are
    among them, and had been copied as a whole. -/
def Lossless (before after : Sending) : Prop :=
  ∃ taken sent, before.sndq = taken ++ after.sndq ∧
    after.pool.freed = (addrs (mbufs taken)).reverse ++ before.pool.freed ∧
    after.handed = before.handed ++ sent ∧ (sent.map Handed.packet).Sublist taken ∧
    ∀ h ∈ sent, h.desc.own = true ∧ h.desc.buffer1Size = h.packet.mpLen ∧
      h.data = flatten before.pool.mem h.packet.chain

def Granted (A : Arena) : Pool → List Pkt → Prop
  | _, [] => True
  | P, m :: rest => ∃ buf P', copyOff A P m = some (buf, P') ∧ buf ≠ 0 ∧ Granted A P' rest

/-- The ring has a descriptor for every packet of the queue, none is too long, and there is memory
    for them. -/
structure Accepts (A : Arena) (r : Ring) (t : Sending) : Prop where
  avail : t.sndq.length ≤ r.txAvail t.dev
  short : ∀ m ∈ t.sndq, m.mpLen ≤ r.bufsize
  granted : Granted A t.pool t.sndq

structure Ready (A : Arena) (r : Ring) (t : Sending) (others : List Mbuf) : Prop where
  bufsize : r.bufsize ≤ 4096
  counter : t.dev.cur < 2^32
  wf : Wf A t.pool (mbufs t.sndq ++ others)
  whole : ∀ m ∈ t.sndq, m.Whole

variable {A : Arena} {r : Ring} {t : Sending} {P : Pool} {m : Pkt} {rest : List Pkt} {others : List Mbuf}

structure Copied (P P' : Pool) (m : Pkt) (buf : Nat) (live : List Mbuf) : Prop where
  data : bytes P'.mem buf m.mpLen = flatten P.mem m.chain
  freed : P'.freed = (addrs m.chain).reverse ++ P.freed
  calm : Calm P P' live

theorem seek_zero (chain : Chain) : (seek chain 0).2 = 0 := by
  induction chain with
  | nil => rfl
  | cons e rest ih =>
    rw [seek]
    split
    · rfl
    · rwa [Nat.zero_sub]

theorem straight_zero (chain : Chain) (len : Nat) : Straight chain 0 len := by
  have start := seek_zero chain
  rw [Straight]
  split
  · trivial
  · rename_i found
    rw [found] at start
    exact .inl start

theorem copyOff_copies {live : List Mbuf} (wf : Wf A P (m.chain ++ live)) (whole : m.Whole)
    (short : m.mpLen ≤ 4096) :
    copyOff A P m = some (0, P) ∨
      ∃ buf P', copyOff A P m = some (buf, P') ∧ buf ≠ 0 ∧ Wf A P' live ∧ Copied P P' m buf live := by
  have bound : m.mpLen + 4095 < 2^32 := by omega
  rcases wf.placed.buffer bound with failed | ⟨buf, k, given, nonzero, placed, blocks, clusters⟩
  · left
    rw [copyOff, failed]
    rfl
  · right
    have rooms := fun e member => @Wf.room_buffer A P _ buf m.mpLen wf blocks clusters e member
    have clear : ∀ e ∈ m.chain, Region.Clear e.extent ⟨buf, m.mpLen⟩ := by
      intro e member
      have fit := whole.2 e member
      have apart := rooms e (List.mem_append_left _ member)
      exact apart.clear.mono ⟨fit.1, fit.2⟩ ⟨Nat.le_refl _, Nat.le_refl _⟩
    have extracted := (@copydata_is_slice P.mem m.chain 0 m.mpLen buf clear).1 (straight_zero m.chain m.mpLen)
    have copyed : (mbufCopydata P.mem m.chain 0 m.mpLen buf).copyed = m.mpLen := by
      rw [extracted.copyed, ← whole.1]
      omega
    have data := extracted.data
    have frame := extracted.frame
    rw [copyed] at data frame
    rw [slice, List.drop_zero, List.take_of_length_le (by rw [flatten_length, whole.1])] at data
    obtain ⟨P', freed, wf', result⟩ := (wf.buffer_write placed clusters frame).freem
    refine ⟨buf, P', ?_, nonzero, wf', ?_, result.freed, ?_⟩
    · rw [copyOff, given]
      dsimp only
      rw [if_neg nonzero, freed]
      rfl
    · rw [← data]
      apply bytes_congr
      intro x low high
      refine mbufFreem_frame (fun e member shared inside => ?_) freed
      have apart := clusters e.ext.meBuf (wf.exts e (List.mem_append_left _ member) shared).1
      simp only [Region.Apart, Region.stop, cluster, mclBytes, mclShift] at apart
      omega
    · have written : Calm P { P with
          kmem := k, mem := (mbufCopydata P.mem m.chain 0 m.mpLen buf).mem } live := by
        refine ⟨fun e member x low high => frame x ?_, rfl⟩
        have apart := rooms e (List.mem_append_right _ member)
        simp only [Region.Apart, Region.stop] at apart high
        omega
      exact written.trans result.calm fun _ member => member

theorem place_avail {s : Stmmac} (counter : s.cur < 2^32) (some : r.txAvail s ≠ 0) (len : Nat) :
    r.txAvail (r.place s len) + 1 = r.txAvail s := by
  simp only [Ring.txAvail, Ring.place, wsub, wrap] at some ⊢
  omega

theorem place_desc (s : Stmmac) {len : Nat} (short : len ≤ 4096) :
    ((r.place s len).desc (s.cur % r.txRingSz)).own = true ∧
      ((r.place s len).desc (s.cur % r.txRingSz)).buffer1Size = len := by
  simp only [Ring.place, Function.update_self, Ring.prepareTxDesc, if_neg (Nat.not_lt.mpr short), true_and]
  split <;> rfl

/-- What a call of `stmmac_xmit` has done with the packets of the queue: those taken have been
    handed over, and at most one has been lost. -/
structure Run (A : Arena) (r : Ring) (t t' : Sending) (others : List Mbuf) (taken lost : List Pkt)
    (sent : List Handed) : Prop where
  queue : t.sndq = taken ++ lost ++ t'.sndq
  freed : t'.pool.freed = (addrs (mbufs taken)).reverse ++ t.pool.freed
  handed : t'.handed = t.handed ++ sent
  packets : sent.map Handed.packet = taken
  whole : ∀ h ∈ sent, h.desc.own = true ∧ h.desc.buffer1Size = h.packet.mpLen ∧
    h.data = flatten t.pool.mem h.packet.chain
  ready : Ready A r t' (mbufs lost ++ others)
  accepts : lost = [] ↔ Accepts A r t
  empties : lost = [] → t'.sndq = []

theorem mbufs_cons (m : Pkt) (rest : List Pkt) : mbufs (m :: rest) = m.chain ++ mbufs rest :=
  List.flatMap_cons

theorem Ready.lose (ready : Ready A r t others) (queue : t.sndq = m :: rest)
    (refused : ¬ Accepts A r t) {dev : Stmmac}
    (counter : dev.cur < 2^32) : Run A r t { t with sndq := rest, dev } others [] [m] [] where
  queue := queue
  freed := rfl
  handed := (List.append_nil _).symm
  packets := rfl
  whole := List.forall_mem_nil _
  accepts := iff_of_false (List.cons_ne_nil m []) refused
  empties := fun none => absurd none (List.cons_ne_nil m [])
  ready := by
    have wf := ready.wf
    rw [queue, mbufs_cons, List.append_assoc] at wf
    have only : mbufs [m] = m.chain := List.append_nil _
    have moved := wf.perm (List.perm_append_comm_assoc m.chain (mbufs rest) others)
    rw [← only] at moved
    exact ⟨ready.bufsize, counter, moved, fun p member =>
      ready.whole p (queue ▸ List.mem_cons_of_mem m member)⟩

theorem Run.cons {t' t'' : Sending} {taken lost : List Pkt} {sent : List Handed} {h : Handed}
    (run : Run A r t' t'' others taken lost sent) (queue : t.sndq = m :: t'.sndq) (packet : h.packet = m)
    (handed : t'.handed = t.handed ++ [h]) (freed : t'.pool.freed = (addrs m.chain).reverse ++ t.pool.freed)
    (whole : h.desc.own = true ∧ h.desc.buffer1Size = h.packet.mpLen ∧
      h.data = flatten t.pool.mem h.packet.chain)
    (same : ∀ p ∈ t'.sndq, flatten t'.pool.mem p.chain = flatten t.pool.mem p.chain)
    (accepts : Accepts A r t' ↔ Accepts A r t) : Run A r t t'' others (m :: taken) lost (h :: sent) where
  queue := by rw [queue, run.queue, List.cons_append, List.cons_append]
  freed := by
    rw [run.freed, freed, mbufs_cons, addrs_append, List.reverse_append, List.append_assoc]
  handed := by rw [run.handed, handed, List.append_assoc, List.singleton_append]
  packets := by rw [List.map_cons, packet, run.packets]
  whole := by
    intro e member
    rcases List.mem_cons.mp member with rfl | later
    · exact whole
    · have inQueue : e.packet ∈ t'.sndq := by
        rw [run.queue, ← run.packets, List.append_assoc]
        exact List.mem_append_left _ (List.mem_map_of_mem later)
      have complete := run.whole e later
      rwa [same e.packet inQueue] at complete
  ready := run.ready
  accepts := run.accepts.trans accepts
  empties := run.empties

theorem accepts_cons {t' : Sending} {buf : Nat} (queue : t.sndq = m :: t'.sndq)
    (avail : r.txAvail t'.dev + 1 = r.txAvail t.dev)
    (short : m.mpLen ≤ r.bufsize) (copied : copyOff A t.pool m = some (buf, t'.pool)) (nonzero : buf ≠ 0) :
    Accepts A r t' ↔ Accepts A r t := by
  constructor
  · intro accepts
    have room := accepts.avail
    refine ⟨?_, ?_, ?_⟩ <;> rw [queue]
    · rw [List.length_cons]
      omega
    · exact List.forall_mem_cons.mpr ⟨short, accepts.short⟩
    · exact ⟨buf, t'.pool, copied, nonzero, accepts.granted⟩
  · intro accepts
    have room := accepts.avail
    have granted := accepts.granted
    rw [queue] at granted
    rw [queue, List.length_cons] at room
    refine ⟨by omega, fun p member => accepts.short p (queue ▸ List.mem_cons_of_mem m member), ?_⟩
    obtain ⟨_, _, again, _, rest⟩ := granted
    rw [copied] at again
    cases again
    exact rest

theorem xmit_run (fuel : Nat) (enough : t.sndq.length < fuel) (ready : Ready A r t others) :
    ∃ ret t' taken lost sent, loop (xmitPass A r) fuel t = some (ret, t') ∧
      Run A r t t' others taken lost sent := by
  induction fuel generalizing t with
  | zero => exact absurd enough (Nat.not_lt_zero _)
  | succ fuel ih =>
    cases queue : t.sndq with
    | nil =>
      have left : xmitPass A r t = some (.leave (0, t)) := by rw [xmitPass, queue]
      refine ⟨0, t, [], [], [], loop_leave (Nat.succ_pos fuel) left, rfl, rfl, (List.append_nil _).symm, rfl,
        List.forall_mem_nil _, ready, ?_, fun _ => queue⟩
      refine iff_of_true rfl ⟨?_, ?_, ?_⟩ <;> rw [queue]
      · exact Nat.zero_le _
      · exact List.forall_mem_nil _
      · trivial
    | cons m rest =>
      by_cases full : r.txAvail t.dev = 0
      · have left : xmitPass A r t = some (.leave (ebusy, { t with sndq := rest })) := by
          rw [xmitPass, queue]
          exact if_pos full
        refine ⟨_, _, _, _, _, loop_leave (Nat.succ_pos fuel) left, ready.lose queue ?_ ready.counter⟩
        intro accepts
        have room := accepts.avail
        rw [queue, full] at room
        exact absurd room (Nat.not_succ_le_zero _)
      by_cases long : m.mpLen > r.bufsize
      · have left : xmitPass A r t = some (.leave (enobufs, { t with sndq := rest })) := by
          rw [xmitPass, queue]
          exact (if_neg full).trans (if_pos long)
        refine ⟨_, _, _, _, _, loop_leave (Nat.succ_pos fuel) left, ready.lose queue ?_ ready.counter⟩
        intro accepts
        exact absurd (accepts.short m (queue ▸ List.mem_cons_self)) (Nat.not_le.mpr long)
      have short : m.mpLen ≤ 4096 := (Nat.not_lt.mp long).trans ready.bufsize
      have wf := ready.wf
      rw [queue, mbufs_cons, List.append_assoc] at wf
      rcases copyOff_copies wf (ready.whole m (queue ▸ List.mem_cons_self)) short with none
        | ⟨buf, P', copied, nonzero, wf', result⟩
      · let dev := { t.dev with
          buf := Function.update t.dev.buf (t.dev.cur % r.txRingSz) Option.none
          clobbered := t.dev.clobbered || (t.dev.buf (t.dev.cur % r.txRingSz)).isSome }
        have left : xmitPass A r t = some (.leave (enobufs, { t with sndq := rest, dev })) := by
          rw [xmitPass, queue]
          dsimp only
          rw [if_neg full, if_neg long, none]
          rfl
        refine ⟨_, _, _, _, _, loop_leave (Nat.succ_pos fuel) left,
          @Ready.lose A r t m rest others ready queue ?_ dev ready.counter⟩
        intro accepts
        have granted := accepts.granted
        rw [queue] at granted
        obtain ⟨buf, P', copied, nonzero, _⟩ := granted
        rw [none] at copied
        cases copied
        exact nonzero rfl
      · let h : Handed := ⟨m, (r.place t.dev m.mpLen).desc (t.dev.cur % r.txRingSz), bytes P'.mem buf m.mpLen⟩
        let next : Sending := ⟨P', r.place t.dev m.mpLen, rest, t.handed ++ [h]⟩
        have again : xmitPass A r t = some (.again next) := by
          rw [xmitPass, queue]
          dsimp only
          rw [if_neg full, if_neg long, copied]
          exact if_neg nonzero
        have ready' : Ready A r next others :=
          ⟨ready.bufsize, wrap_lt _, wf', fun p member =>
            ready.whole p (queue ▸ List.mem_cons_of_mem m member)⟩
        have less : next.sndq.length < fuel := by
          rw [queue, List.length_cons] at enough
          exact Nat.lt_of_succ_lt_succ enough
        have desc := place_desc (r := r) t.dev short
        obtain ⟨ret, t', taken, lost, sent, left, run⟩ := ih less ready'
        rw [← loop_again again] at left
        refine ⟨ret, t', m :: taken, lost, h :: sent, left,
          run.cons queue rfl rfl result.freed ⟨desc.1, desc.2, result.data⟩ ?_ ?_⟩
        · intro p member
          apply result.calm.flatten_eq _ (ready'.whole p member).2
          intro e inside
          exact List.mem_append_left _ (List.mem_flatMap.mpr ⟨p, member, inside⟩)
        · exact accepts_cons queue (place_avail ready.counter full _) (Nat.not_lt.mp long) copied nonzero

theorem mbufs_append (packets more : List Pkt) :
    mbufs (packets ++ more) = mbufs packets ++ mbufs more := List.flatMap_append

theorem Run.lossless_iff {t' : Sending} {taken lost : List Pkt} {sent : List Handed}
    (run : Run A r t t' others taken lost sent) :
    Lossless t t' ↔ lost = [] := by
  constructor
  · rintro ⟨gone, _, queue, freed, _⟩
    have split : gone = taken ++ lost := List.append_cancel_right (queue.symm.trans run.queue)
    have same := congrArg List.length (List.append_cancel_right (freed.symm.trans run.freed))
    rw [split, mbufs_append, addrs_append, List.length_reverse, List.length_reverse,
      List.length_append] at same
    cases lost with
    | nil => rfl
    | cons m rest =>
      have some : (addrs (mbufs (m :: rest))).length ≠ 0 := Nat.succ_ne_zero _
      omega
  · rintro rfl
    refine ⟨taken, sent, ?_, run.freed, run.handed, ?_, run.whole⟩
    · rw [run.queue, List.append_nil]
    · rw [run.packets]

theorem Run.shorter {t' : Sending} {taken lost : List Pkt} {sent : List Handed}
    (run : Run A r t t' others taken lost sent)
    (some : t.sndq ≠ []) : t'.sndq.length < t.sndq.length := by
  have before := List.length_pos_iff.mpr some
  have queue := congrArg List.length run.queue
  rw [List.length_append, List.length_append] at queue
  cases lost with
  | nil =>
    rw [run.empties rfl]
    exact before
  | cons m rest =>
    rw [List.length_cons] at queue
    omega

/-- No packet is lost exactly when the driver accepts all those of the queue; and the queue is
    flushed in any case. -/
theorem packets_kept_iff (ready : Ready A r t others) :
    (∃ ret t', stmmacXmit A r t = some (ret, t') ∧ (Lossless t t' ↔ Accepts A r t)) ∧
      ∃ t', etherFlushIfSndq A r t = some t' ∧ t'.sndq = [] := by
  constructor
  · obtain ⟨ret, t', taken, lost, sent, left, run⟩ := xmit_run _ (Nat.lt_succ_self _) ready
    exact ⟨ret, t', left, run.lossless_iff.trans run.accepts⟩
  · have pass : ∀ t, (∃ others, Ready A r t others) →
        (∃ t', flushPass A r t = some (.again t') ∧ (∃ others, Ready A r t' others) ∧
          t'.sndq.length < t.sndq.length) ∨
          ∃ t', flushPass A r t = some (.leave t') ∧ t'.sndq = [] := by
      rintro t ⟨others, ready⟩
      by_cases empty : t.sndq = []
      · exact .inr ⟨t, if_pos empty, empty⟩
      · obtain ⟨ret, t', taken, lost, sent, left, run⟩ := xmit_run _ (Nat.lt_succ_self _) ready
        refine .inl ⟨t', ?_, ⟨_, run.ready⟩, run.shorter empty⟩
        rw [flushPass, if_neg empty, stmmacXmit, left]
        rfl
    exact loop_variant (fun t => ∃ others, Ready A r t others) (fun t => t.sndq.length)
      (fun t : Sending => t.sndq = []) pass _ t
      ⟨others, ready⟩ (Nat.lt_succ_self _)

abbrev frame : Mbuf := { mbufOf pktGet with len := 60, pkthdr := ⟨60, 0⟩ }

def waiting (cur : Nat) : Sending := ⟨pktGet.2, { eight.init with cur }, [⟨frame, []⟩], []⟩

theorem frame_ready : Ready Kmem.board eight (waiting 0) [] := by
  have edit := @Reachable.edit_head _ _ _ _ _ frame pktGet_reachable rfl rfl rfl rfl
  refine ⟨by decide, by decide, edit.wf, ?_⟩
  intro m member
  rw [List.mem_singleton.mp member]
  refine ⟨by decide +kernel, fun e inside => ?_⟩
  rw [List.mem_singleton.mp inside]
  unfold Mbuf.Fit
  decide +kernel

theorem frame_kept : (∃ ret t', stmmacXmit Kmem.board eight (waiting 0) = some (ret, t') ∧
      (Lossless (waiting 0) t' ↔ Accepts Kmem.board eight (waiting 0))) ∧
    ∃ t', etherFlushIfSndq Kmem.board eight (waiting 0) = some t' ∧ t'.sndq = [] :=
      packets_kept_iff frame_ready

/-- With no descriptor left the packet is taken from the queue, and neither sent nor freed. -/
theorem full_ring_loses : ∃ t', stmmacXmit Kmem.board eight (waiting 7) = some (ebusy, t') ∧
    ¬ Lossless (waiting 7) t' := by
  have full : eight.txAvail (waiting 7).dev = 0 := by decide
  have left : xmitPass Kmem.board eight (waiting 7) =
      some (.leave (ebusy, { waiting 7 with sndq := [] })) := by
    rw [xmitPass, waiting]
    exact if_pos full
  refine ⟨_, loop_leave (Nat.succ_pos _) left, ?_⟩
  rintro ⟨taken, _, queue, freed, _⟩
  rw [List.append_nil] at queue
  have none := congrArg List.length freed
  rw [← queue, List.length_append, List.length_reverse] at none
  have one : (addrs (mbufs (waiting 7).sndq)).length = 1 := rfl
  dsimp only at none
  omega

end Embryo.Drivers
