import Embryo.Sock.Datagram
import Embryo.Uipc.Sharing

namespace Embryo.Sock

open Embryo.Machine Embryo.Uipc
open Embryo.Kmem (Arena)

structure Datagram where
  addr : List UInt8
  payload : List UInt8
deriving DecidableEq, Repr

structure Delivery where
  addrp : Bool
  resid : Nat
  addr : List UInt8
  data : List UInt8
  trunc : Bool
deriving DecidableEq, Repr

structure Delivers (d : Datagram) (g : Delivery) : Prop where
  addr : g.addr = if g.addrp then d.addr else []
  data : g.data = d.payload.take (min g.resid d.payload.length)
  trunc : g.resid < d.payload.length → g.trunc = true

def datagram (mem : Memory) : Chain → Datagram
  | [] => ⟨[], []⟩
  | m :: data => ⟨bytes mem m.data m.len, flatten mem data⟩

def pending (mem : Memory) (sb : Sockbuf) : List Datagram := sb.mb.records.map (datagram mem)

/-- A socket and the pool. `held` are the mbufs in use elsewhere, and the last two fields record the
    datagrams queued so far and what the calls of `soreceive` gave. -/
structure World where
  pool : Pool
  so : Socket
  held : List Mbuf
  sent : List Datagram
  got : List Delivery

structure Proper (req : Request) : Prop where
  peek : req.flags.peek = false
  oob : req.flags.oob = false
  mp0 : req.mp0 = false
  uio : req.uio.Valid
  moved : req.uio.moved = []

def delivery (req : Request) (r : Received) : Delivery :=
  ⟨req.addrp, req.uio.resid, flatten r.pool.mem r.addr, r.uio.moved, r.flags.trunc⟩

/-- The steps of a datagram socket: a payload of someone is queued, a call takes a record or finds
    none, and the rest of the kernel does something that leaves the queued mbufs alone. -/
inductive Step (A : Arena) : World → World → Prop where
  | append {w : World} {addr : Nat} {data : Ptr} {rest : List Mbuf} {P : Pool} {sb : Sockbuf}
      (owned : w.held.Perm (data.chain ++ rest)) (fits : ∀ e ∈ data.chain, e.Fit)
      (readable : Readable data.chain)
      (call : sbappendaddr A w.pool w.so.rcvsb addr data .null = some (true, P, sb)) :
      Step A w { w with
        pool := P
        so := w.so.setRcvsb sb
        held := rest
        sent := w.sent ++ [⟨bytes w.pool.mem addr (w.pool.mem addr).toNat, flatten w.pool.mem data.chain⟩] }
  | receive {w : World} {fuel : Nat} {req : Request} {r : Received} (proper : Proper req)
      (call : soreceive A fuel w.pool w.so req = some (.returns r)) :
      Step A w { w with
        pool := r.pool
        so := r.so
        held := r.addr ++ (r.control ++ (r.mp ++ w.held))
        got := if w.so.rcvsb.mb = .null then w.got else w.got ++ [delivery req r] }
  | other {w : World} {P : Pool} {so : Socket} {held : List Mbuf}
      (same : so.rcvsb = w.so.rcvsb) (oobmark : so.oobmark = 0)
      (wf : Wf A P (w.so.rcvsb.mb.all ++ held)) (spared : Spared w.pool P w.so.rcvsb.mb.all) :
      Step A w { w with pool := P, so := so, held := held }

structure Orderly (A : Arena) (w : World) : Prop where
  wf : Wf A w.pool (w.so.rcvsb.mb.all ++ w.held)
  fits : ∀ e ∈ w.so.rcvsb.mb.all, e.Fit
  readable : ∀ c ∈ w.so.rcvsb.mb.records, Readable c.tail
  oobmark : w.so.oobmark = 0
  log : ∃ done, w.sent = done ++ pending w.pool.mem w.so.rcvsb ∧ List.Forall₂ Delivers done w.got

variable {A : Arena} {P P' : Pool} {so : Socket} {req : Request} {r : Received} {fuel : Nat} {w w' : World}
  {live : List Mbuf}

theorem datagram_kept {c : Chain} (spared : Spared P P' c) : datagram P'.mem c = datagram P.mem c := by
  cases c with
  | nil => rfl
  | cons m data =>
    have rest : Spared P P' data := fun e member => spared e (List.mem_cons_of_mem _ member)
    rw [datagram, datagram, spared m List.mem_cons_self, rest.flatten_eq]

theorem pending_kept {sb : Sockbuf} (spared : Spared P P' sb.mb.all) :
    pending P'.mem sb = pending P.mem sb := by
  apply List.map_congr_left
  intro c member
  exact datagram_kept (fun e inside => spared e (List.mem_flatten.mpr ⟨c, member, inside⟩))

theorem Orderly.other {P : Pool} {so : Socket} {held : List Mbuf} (orderly : Orderly A w)
    (same : so.rcvsb = w.so.rcvsb) (oobmark : so.oobmark = 0)
    (wf : Wf A P (w.so.rcvsb.mb.all ++ held)) (spared : Spared w.pool P w.so.rcvsb.mb.all) :
    Orderly A { w with pool := P, so := so, held := held } := by
  obtain ⟨done, sent, got⟩ := orderly.log
  refine ⟨?_, ?_, ?_, oobmark, done, ?_, got⟩
  · simpa only [same] using wf
  · simpa only [same] using orderly.fits
  · simpa only [same] using orderly.readable
  · simp only [same]
    rw [pending_kept spared]
    exact sent

theorem append_record {sb sb' : Sockbuf} {addr : Nat} {data control : Ptr} (wf : Wf A P live)
    (call : sbappendaddr A P sb addr data control = some (true, P', sb')) :
    ∃ m, sb'.mb = sb.mb.queueBehind (.mbuf m (control.linkBehind data) .null) ∧ Wf A P' (m :: live) ∧
      Calm P P' live ∧ m.Fit ∧ bytes P'.mem m.data m.len = bytes P.mem addr (P.mem addr).toNat := by
  rcases sbappendaddr_cases call with ⟨wrong, _⟩ | ⟨m, P₁, _, _, _, short, got, filled, rfl⟩
  · cases wrong
  · rcases wf.take (show mtSoname < 256 by decide) false with ⟨_, failed⟩ | ⟨p, k, _, _, given, wf₁⟩
    · rw [mbufGet, failed] at got
      cases got
    · rw [mbufGet, given] at got
      cases got
      have named : Wf A (took P k p mtSoname)
          ({ initial (P.stale p) p mtSoname false with len := (P.mem addr).toNat } :: live) :=
        wf₁.adjust rfl rfl rfl (fun _ => rfl)
      have room : ({ initial (P.stale p) p mtSoname false with len := (P.mem addr).toNat } : Mbuf).room =
          ⟨p + sizeofMHdr, mlen⟩ := rfl
      have fit : ({ initial (P.stale p) p mtSoname false with len := (P.mem addr).toNat } : Mbuf).Fit := by
        rw [Mbuf.Fit, room]
        exact ⟨Nat.le_refl _, Nat.add_le_add_left short _⟩
      obtain ⟨written, wf₂, calm⟩ := @Wf.fill _ _ _ _ named rfl addr _ _ fit.1 fit.2
      rw [written] at filled
      cases filled
      exact ⟨_, rfl, wf₂, ⟨calm.mem, calm.stale⟩, fit, bytes_bcopy _ _ _ _⟩

theorem Orderly.append {addr : Nat} {data : Ptr} {rest : List Mbuf} {P : Pool} {sb : Sockbuf}
    (orderly : Orderly A w) (owned : w.held.Perm (data.chain ++ rest)) (fits : ∀ e ∈ data.chain, e.Fit)
    (readable : Readable data.chain)
    (call : sbappendaddr A w.pool w.so.rcvsb addr data .null = some (true, P, sb)) :
    Orderly A { w with
      pool := P
      so := w.so.setRcvsb sb
      held := rest
      sent := w.sent ++ [⟨bytes w.pool.mem addr (w.pool.mem addr).toNat,
          flatten w.pool.mem data.chain⟩] } := by
  obtain ⟨m, queue, wf, calm, fit, address⟩ := append_record orderly.wf call
  obtain ⟨done, sent, got⟩ := orderly.log
  have records : sb.mb.records = w.so.rcvsb.mb.records ++ [m :: data.chain] := by
    rw [queue, Ptr.records_queueBehind]
    rfl
  have all : sb.mb.all = w.so.rcvsb.mb.all ++ m :: data.chain := by
    rw [Ptr.all, records, List.flatten_append, List.flatten_singleton, Ptr.all]
  have dataLive : ∀ e ∈ data.chain, e ∈ w.so.rcvsb.mb.all ++ w.held := by
    intro e member
    exact List.mem_append_right _ (owned.mem_iff.mpr (List.mem_append_left _ member))
  constructor
  · show Wf A P (sb.mb.all ++ rest)
    apply wf.perm
    rw [all, List.append_assoc, List.cons_append]
    exact ((owned.append_left _).cons m).trans List.perm_middle.symm
  · show ∀ e ∈ sb.mb.all, e.Fit
    intro e member
    rw [all, List.mem_append, List.mem_cons] at member
    rcases member with queued | rfl | new
    · exact orderly.fits e queued
    · exact fit
    · exact fits e new
  · show ∀ c ∈ sb.mb.records, Readable c.tail
    intro c member
    rw [records, List.mem_append, List.mem_singleton] at member
    rcases member with queued | rfl
    · exact orderly.readable c queued
    · exact readable
  · exact orderly.oobmark
  · refine ⟨done, ?_, got⟩
    have kept : w.so.rcvsb.mb.records.map (datagram P.mem) = pending w.pool.mem w.so.rcvsb :=
      pending_kept (calm.spared (fun e member => List.mem_append_left _ member) orderly.fits)
    show _ = done ++ sb.mb.records.map (datagram P.mem)
    rw [records, List.map_append, kept, sent, List.append_assoc, List.map_singleton, datagram, address,
      calm.flatten_eq dataLive fits]

theorem receiveRecord_unique {flags : MsgFlags} {m : Mbuf} {next nextpkt : Ptr} {fuel' : Nat}
    {o o' : Outcome} (first : receiveRecord A fuel P so req flags m next nextpkt = some o)
    (second : receiveRecord A fuel' P so req flags m next nextpkt = some o') : o = o' := by
  unfold receiveRecord at first second
  split at first
  · cases first
  · rename_i taken
    rw [taken] at second
    dsimp only at second
    split at first
    · cases first
    · rename_i controls
      rw [controls] at second
      dsimp only at first second
      split at first
      · cases first
      · rename_i s looped
        split at second
        · cases second
        · rename_i s' looped'
          rw [loop_unique looped looped'] at first
          exact Option.some.inj (first.symm.trans second)

theorem sleepOrLeave_returns {flags : MsgFlags} (slept : sleepOrLeave P so req flags = .returns r) :
    (so.nbio = true ∨ flags.dontwait = true ∨ req.uio.resid = 0) ∧
      r.so = so ∧ r.pool = P ∧ r.uio = req.uio ∧ r.addr = [] ∧ r.control = [] ∧ r.mp = [] := by
  unfold sleepOrLeave at slept
  split at slept
  · rename_i impatient
    cases slept
    refine ⟨?_, rfl, rfl, rfl, rfl, rfl, rfl⟩
    rcases impatient with nbio | dontwait
    · exact .inl nbio
    · exact .inr (.inl dontwait)
  · split at slept
    · rename_i none
      cases slept
      exact ⟨.inr (.inr none.1), rfl, rfl, rfl, rfl, rfl, rfl⟩
    · cases slept

theorem soreceive_empty (empty : so.rcvsb.mb = .null)
    (call : soreceive A fuel P so req = some (.returns r)) :
    r.so.rcvsb = so.rcvsb ∧ r.so.oobmark = so.oobmark ∧ r.pool = P ∧ r.uio = req.uio ∧ r.addr = [] ∧
      r.control = [] ∧ r.mp = [] := by
  unfold soreceive at call
  dsimp only at call
  split at call
  · cases call
  · split at call
    · cases call
    · rw [empty] at call
      dsimp only at call
      split at call
      · cases call
        refine ⟨?_, ?_, rfl, rfl, rfl, rfl, rfl⟩
        · dsimp only
          split <;> rfl
        · dsimp only
          split <;> rfl
      · split at call
        · cases call
          exact ⟨rfl, rfl, rfl, rfl, rfl, rfl, rfl⟩
        · obtain ⟨_, same, rest⟩ := sleepOrLeave_returns (Option.some.inj call)
          rw [same]
          exact ⟨rfl, rfl, rest⟩

def Request.entry (req : Request) (so : Socket) : MsgFlags :=
  { req.flags with eor := false, dontwait := req.flags.dontwait || so.nbio }

theorem soreceive_record {m : Mbuf} {next nextpkt : Ptr} (first : so.rcvsb.mb = .mbuf m next nextpkt)
    (call : soreceive A fuel P so req = some (.returns r)) :
    receiveRecord A fuel P so req (req.entry so) m next nextpkt = some (.returns r) := by
  unfold soreceive at call
  dsimp only at call
  split at call
  · cases call
  · split at call
    · cases call
    · rw [first] at call
      dsimp only at call
      split at call
      · rename_i short
        obtain ⟨reason, _⟩ := sleepOrLeave_returns (Option.some.inj call)
        simp only [tooLittle, Bool.and_eq_true, decide_eq_true_eq, Bool.not_eq_true'] at short
        obtain ⟨⟨⟨⟨⟨dontwait, nbio⟩, less⟩, _⟩, _⟩, _⟩ := short
        rcases reason with patient | patient | none
        · rw [nbio] at patient
          cases patient
        · rw [dontwait] at patient
          cases patient
        · omega
      · exact call

theorem Orderly.split {m : Mbuf} {next nextpkt : Ptr} (orderly : Orderly A w)
    (first : w.so.rcvsb.mb = .mbuf m next nextpkt) :
    Wf A w.pool (m :: (next.chain ++ (nextpkt.all ++ w.held))) ∧ (∀ e ∈ m :: next.chain, e.Fit) ∧
      (∀ e ∈ nextpkt.all, e.Fit) ∧ Readable next.chain := by
  have wf := orderly.wf
  have fits := orderly.fits
  have readable := orderly.readable
  rw [first] at wf fits readable
  rw [Ptr.all_mbuf] at wf fits
  refine ⟨by simpa only [List.cons_append, List.append_assoc] using wf, ?_, ?_, ?_⟩
  · exact fun e member => fits e (List.mem_append_left nextpkt.all member)
  · exact fun e member => fits e (List.mem_append_right (m :: next.chain) member)
  · exact readable (m :: next.chain) List.mem_cons_self

theorem Orderly.taken {m : Mbuf} {next nextpkt : Ptr} (orderly : Orderly A w) (proper : Proper req)
    (first : w.so.rcvsb.mb = .mbuf m next nextpkt)
    (call : soreceive A fuel w.pool w.so req = some (.returns r)) :
    r.addr = (if req.addrp then [m] else []) ∧ r.control = [] ∧
      Taken A (r.addr ++ (nextpkt.all ++ w.held)) ((flatten w.pool.mem next.chain).take req.uio.resid)
        (req.uio.resid < total next.chain) w.pool nextpkt r := by
  obtain ⟨wf, fits, _, readable⟩ := orderly.split first
  obtain ⟨fuel', r', returned, taken⟩ := @receiveRecord_takes A w.pool (nextpkt.all ++ w.held) m next nextpkt
    w.so req (req.entry w.so) readable wf (fun e member => fits e (List.mem_cons_of_mem _ member))
    ⟨proper.peek, rfl⟩ proper.uio orderly.oobmark proper.mp0
  have same := receiveRecord_unique (soreceive_record first call) returned
  cases same
  rw [proper.moved, List.nil_append] at taken
  exact taken

theorem Orderly.receive (orderly : Orderly A w) (proper : Proper req)
    (call : soreceive A fuel w.pool w.so req = some (.returns r)) :
    Orderly A { w with
      pool := r.pool
      so := r.so
      held := r.addr ++ (r.control ++ (r.mp ++ w.held))
      got := if w.so.rcvsb.mb = .null then w.got else w.got ++ [delivery req r] } := by
  cases first : w.so.rcvsb.mb with
  | null =>
    obtain ⟨same, oobmark, pool, _, addr, control, mp⟩ := soreceive_empty first call
    rw [addr, control, mp, pool]
    simp only [if_true, List.nil_append]
    exact orderly.other same (oobmark.trans orderly.oobmark) orderly.wf (fun _ _ => rfl)
  | mbuf m next nextpkt =>
    obtain ⟨_, fits, fitsRest, readable⟩ := orderly.split first
    obtain ⟨addr, control, taken⟩ := orderly.taken proper first call
    obtain ⟨done, sent, got⟩ := orderly.log
    have restCalm : Calm w.pool r.pool nextpkt.all :=
      taken.calm.mono (fun e member => List.mem_append_right _ (List.mem_append_left _ member))
    have records : r.so.rcvsb.mb.records = nextpkt.records := by rw [taken.mb]
    have queue : w.so.rcvsb.mb.records = (m :: next.chain) :: nextpkt.records := by rw [first]; rfl
    rw [control, taken.mp]
    constructor
    · simp only [taken.mb, List.nil_append]
      apply taken.wf.perm
      exact List.perm_append_comm_assoc _ _ _
    · simpa only [taken.mb] using fitsRest
    · intro c member
      apply orderly.readable c
      rw [queue]
      rw [records] at member
      exact List.mem_cons_of_mem _ member
    · exact taken.oobmark
    · refine ⟨done ++ [datagram w.pool.mem (m :: next.chain)], ?_, ?_⟩
      · have kept : nextpkt.records.map (datagram r.pool.mem) = nextpkt.records.map (datagram w.pool.mem) :=
          @pending_kept w.pool r.pool { w.so.rcvsb with mb := nextpkt }
            (restCalm.spared (fun _ member => member) fitsRest)
        show w.sent = _ ++ r.so.rcvsb.mb.records.map (datagram r.pool.mem)
        rw [records, kept, sent, pending, queue, List.map_cons, List.append_assoc, List.singleton_append]
      · simp only [reduceCtorEq, if_false]
        apply List.rel_append got
        refine .cons ⟨?_, ?_, ?_⟩ .nil
        · cases wanted : req.addrp with
          | true =>
            rw [wanted] at addr
            have mine : m ∈ r.addr ++ (nextpkt.all ++ w.held) := by
              rw [addr]
              exact List.mem_append_left _ List.mem_cons_self
            have spared : Spared w.pool r.pool [m] :=
              taken.calm.spared (fun e member => by rwa [List.mem_singleton.mp member])
                (fun e member => by rw [List.mem_singleton.mp member]; exact fits m List.mem_cons_self)
            simp only [delivery, addr, wanted, if_true, datagram]
            rw [spared.flatten_eq, flatten_cons]
            exact List.append_nil _
          | false =>
            rw [wanted] at addr
            simp only [delivery, addr, wanted, Bool.false_eq_true, if_false]
            rfl
        · simp only [delivery, datagram, taken.moved]
          rw [List.take_eq_take_min]
        · intro more
          apply taken.trunc
          simpa only [delivery, datagram, flatten_length] using more

theorem Step.orderly (step : Step A w w') (orderly : Orderly A w) : Orderly A w' := by
  cases step with
  | append owned fits readable call => exact orderly.append owned fits readable call
  | receive proper call => exact orderly.receive proper call
  | other same oobmark wf spared => exact orderly.other same oobmark wf spared

theorem Orderly.answers (orderly : Orderly A w) (proper : Proper req) (settled : w.so.isconfirming = false) :
    ∃ fuel o, soreceive A fuel w.pool w.so req = some o := by
  have inband : ¬ req.flags.oob = true := by
    rw [proper.oob]
    decide
  have quiet : ¬ (w.so.isconfirming = true ∧ req.uio.resid ≠ 0) := by
    rw [settled]
    exact fun both => absurd both.1 (by decide)
  cases first : w.so.rcvsb.mb with
  | null =>
    refine ⟨0, ?_⟩
    unfold soreceive
    dsimp only
    rw [if_neg inband, if_neg quiet, first]
    dsimp only
    split
    · exact ⟨_, rfl⟩
    · split <;> exact ⟨_, rfl⟩
  | mbuf m next nextpkt =>
    obtain ⟨wf, fits, _, readable⟩ := orderly.split first
    obtain ⟨fuel, r, returned, _⟩ := @receiveRecord_takes A w.pool (nextpkt.all ++ w.held) m next nextpkt
      w.so req (req.entry w.so) readable wf (fun e member => fits e (List.mem_cons_of_mem _ member))
      ⟨proper.peek, rfl⟩ proper.uio orderly.oobmark proper.mp0
    refine ⟨fuel, ?_⟩
    unfold soreceive
    dsimp only
    rw [if_neg inband, if_neg quiet, first]
    dsimp only
    split
    · exact ⟨_, rfl⟩
    · exact ⟨_, returned⟩

/-- In every run the datagrams given to the callers are the first of those that were sent, in order
    and one for one, the queue holds the others, a call on an empty queue gives nothing, and every
    call ends. -/
theorem datagrams_delivered {start : World} (empty : start.so.rcvsb.mb = .null)
    (oobmark : start.so.oobmark = 0) (wf : Wf A start.pool start.held) (sent : start.sent = [])
    (got : start.got = []) (run : Relation.ReflTransGen (Step A) start w) :
    (∃ done, w.sent = done ++ pending w.pool.mem w.so.rcvsb ∧ List.Forall₂ Delivers done w.got) ∧
      (∀ fuel req r, w.so.rcvsb.mb = .null → soreceive A fuel w.pool w.so req = some (.returns r) →
        r.uio = req.uio ∧ r.addr = []) ∧
      ∀ req, Proper req → w.so.isconfirming = false → ∃ fuel o, soreceive A fuel w.pool w.so req =
        some o := by
  have orderly : Orderly A w := by
    induction run with
    | refl =>
      constructor
      · rw [empty]
        exact wf
      · rw [empty]
        exact fun _ member => absurd member List.not_mem_nil
      · rw [empty]
        exact fun _ member => absurd member List.not_mem_nil
      · exact oobmark
      · refine ⟨[], ?_, ?_⟩
        · rw [sent, pending, empty]
          rfl
        · rw [got]
          exact .nil
    | tail _ step ih => exact step.orderly ih
  refine ⟨orderly.log, ?_, fun req proper settled => orderly.answers proper settled⟩
  intro fuel req r none call
  obtain ⟨_, _, _, uio, addr, _⟩ := soreceive_empty none call
  exact ⟨uio, addr⟩

theorem Wf.write_below (wf : Wf A P live) {mem : Memory} (frame : ∀ x, A.kmembase ≤ x → mem x = P.mem x) :
    Wf A { P with mem } live := by
  obtain ⟨nodes, free⟩ := wf.listed
  refine ⟨wf.placed, wf.tabled, wf.counted, wf.blank,
    ⟨nodes, ?_, free.nodup, free.unused, free.freemcl⟩, wf.exts, wf.types⟩
  apply free.linked.congr
  intro c listed
  obtain ⟨carved, _⟩ := (free.unused c).mp listed
  have place := wf.placed.cluster_place carved
  apply load32_congr
  intro x low _
  exact frame x (by omega)

abbrev payload : Mbuf := { mbufOf arrived with len := 5, pkthdr := ⟨5, 0⟩ }
abbrev readThree : Request := ⟨true, false, false, noMsgFlags, ⟨[3], 3, []⟩⟩
abbrev readOff : Received := receivedOf (soreceive Kmem.board 3 queued.2.1 waiting readThree)

theorem named_answers :
    arrived.1.isSome = true ∧ (queued.1 = true ∧ waiting.rcvsb.mb ≠ .null) ∧
    (∀ e ∈ packet.chain, e.room.addr ≤ e.data ∧ e.data + e.len ≤ e.room.stop) ∧
    (∀ m ∈ packet.chain.head?, m.type ≠ mtControl) ∧
    returned (soreceive Kmem.board 3 queued.2.1 waiting readThree) = true := by
  decide +kernel

theorem named_wf : Wf Kmem.board named [payload] := by
  have get := started_reachable.get (@get_eq arrived named_answers.1)
  have edit := @Reachable.edit_head _ _ _ _ _ payload get rfl rfl rfl rfl
  apply Wf.write_below edit.wf
  intro x above
  apply Function.update_of_ne
  rintro rfl
  exact absurd above (by decide)

theorem datagrams_delivered_first :
    ∃ done, [⟨bytes named.mem 0x1000 16, flatten named.mem [payload]⟩] =
        done ++ pending readOff.pool.mem readOff.so.rcvsb ∧
      List.Forall₂ Delivers done [delivery readThree readOff] := by
  obtain ⟨-, ⟨code, filled⟩, fits, types, ends⟩ := named_answers
  have call : sbappendaddr Kmem.board named attached.rcvsb 0x1000 packet .null =
      some (true, queued.2.1, queued.2.2) := by
    rw [← code]
    exact queued_eq
  have readable : Readable packet.chain := by
    refine ⟨?_, ?_, ?_, trivial⟩
    · exact types
    · exact Iff.rfl
    · exact fun _ => rfl
  have first : Step Kmem.board ⟨named, attached, [payload], [], []⟩
      ⟨queued.2.1, waiting, [], [⟨bytes named.mem 0x1000 16, flatten named.mem [payload]⟩], []⟩ :=
    Step.append (List.Perm.refl _) fits readable call
  have proper : Proper readThree := ⟨rfl, rfl, rfl, ⟨by decide, by decide⟩, rfl⟩
  have second := @Step.receive Kmem.board
    ⟨queued.2.1, waiting, [], [⟨bytes named.mem 0x1000 16, flatten named.mem [payload]⟩], []⟩
      3 readThree readOff
    proper (returned_eq ends)
  have delivered := (datagrams_delivered rfl rfl named_wf rfl rfl (.tail (.tail .refl first) second)).1
  simpa only [filled, if_false, List.nil_append] using delivered

abbrev nextArrived : Option Mbuf × Pool := mbufTake Kmem.board named 2 false
abbrev marked : Ptr :=
  .mbuf { mbufOf arrived with
      len := 5
      pkthdr := ⟨10, 0⟩
      flags := { (mbufOf arrived).flags with eor := true } }
    (.mbuf { mbufOf nextArrived with len := 5 } .null .null) .null
abbrev markedQueue : Bool × Pool × Sockbuf :=
  (sbappendaddr Kmem.board nextArrived.2 attached.rcvsb 0x1000 marked .null).getD (false, named, unused)
abbrev readTen : Request := ⟨true, false, false, noMsgFlags, ⟨[10], 10, []⟩⟩
abbrev readMarked : Received :=
  receivedOf (soreceive Kmem.board 3 markedQueue.2.1 (attached.setRcvsb markedQueue.2.2) readTen)

theorem marked_payload_cut :
    sbappendaddr Kmem.board nextArrived.2 attached.rcvsb 0x1000 marked .null = some (true, markedQueue.2) ∧
      soreceive Kmem.board 3 markedQueue.2.1 (attached.setRcvsb markedQueue.2.2) readTen =
        some (.returns readMarked) ∧
      readMarked.uio.moved ≠ (flatten nextArrived.2.mem marked.chain).take
        (min readTen.uio.resid (flatten nextArrived.2.mem marked.chain).length) := by
  have ended : (sbappendaddr Kmem.board nextArrived.2 attached.rcvsb 0x1000 marked .null).isSome = true := by
    decide +kernel
  have code : markedQueue.1 = true := by decide +kernel
  refine ⟨?_, returned_eq (by decide +kernel), ?_⟩
  · exact (some_getD (d := (false, named, unused)) ended).trans (congrArg some (Prod.ext code rfl))
  · decide +kernel

end Embryo.Sock
