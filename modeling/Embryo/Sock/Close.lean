import Embryo.Inet.PcbPlace
import Embryo.Kmem.Held
import Embryo.Sock.Delivery
import Embryo.Uipc.Buffers

namespace Embryo.Sock

open Embryo.Machine Embryo.Uipc
open Embryo.Inet (Inpcbtable einval)
open Embryo.Kmem (Arena Holding Allots Idle kmemFree kmemMalloc)

def sizeofSocket : Nat := 76
def sizeofInPcb : Nat := 108

structure Endpoint where
  addr : Nat
  pcb : Option Nat
  sndsb : Sockbuf
  rcvsb : Sockbuf

/-- The memory below a socket, the table of its protocol with the `inp_option` of each pcb, and the socket. -/
structure Sockets where
  pool : Pool
  table : Inpcbtable
  option : Nat → Chain
  so : Endpoint

/-- `free_inpcb` for the pcb at `p`. The route it holds is not freed. -/
def freeInpcb (A : Arena) (S : Sockets) (p : Nat) : Option Sockets :=
  let S := { S with so := { S.so with pcb := none } }
  match mbufFreem A S.pool (S.option p) with
  | none => none
  | some P =>
    let T := Inet.freeInpcb S.table p
    match kmemFree A P.kmem p with
    | none => none
    | some k => some { S with pool := { P with kmem := k }, table := T }

def detach (A : Arena) (S : Sockets) : Option (Nat × Sockets) :=
  match S.so.pcb with
  | none => some (einval, S)
  | some p =>
    match freeInpcb A S p with
    | none => none
    | some S => some (0, S)

def sofree (A : Arena) (S : Sockets) : Option Sockets :=
  let S := { S with so := { S.so with sndsb := sbrelease S.so.sndsb } }
  match kmemFree A S.pool.kmem S.so.addr with
  | none => none
  | some k => some { S with pool := { S.pool with kmem := k } }

def soclose (A : Arena) (S : Sockets) : Option (Nat × Sockets) :=
  let detached := if S.so.pcb.isSome then detach A S else some (0, S)
  match detached with
  | none => none
  | some (ret, S) =>
    match sofree A S with
    | none => none
    | some S => some (ret, S)

def Sockets.options (S : Sockets) : Chain :=
  match S.so.pcb with
  | none => []
  | some p => S.option p

def Sockets.blocks (S : Sockets) : List Holding :=
  match S.so.pcb with
  | none => [⟨S.so.addr, sizeofSocket⟩]
  | some p => [⟨p, sizeofInPcb⟩, ⟨S.so.addr, sizeofSocket⟩]

/-- An open socket. `rest` are the mbufs in use elsewhere, `pcbs` the pcbs of all sockets. -/
structure InUse (A : Arena) (S : Sockets) (rest : List Mbuf) (pcbs : Finset Nat) : Prop where
  wf : Wf A S.pool (S.so.rcvsb.mb.all ++ (S.options ++ rest))
  blocks : Allots A S.pool.kmem ((S.so.rcvsb.mb.all ++ (S.options ++ rest)).map hold ++ S.blocks) []
  filed : Inet.Filed S.table pcbs

structure Closed (S S' : Sockets) : Prop where
  freed : ∃ gone, S'.pool.freed = gone ++ S.pool.freed ∧ ∀ m ∈ S.so.rcvsb.mb.all, gone.count m.addr = 1
  unlinked : ∀ p, S.so.pcb = some p → p ∉ S'.table.pcbqueue ∧ ∀ i, p ∉ S'.table.pcbhashtbl i
  released : ∀ b ∈ S.blocks, Idle S'.pool.kmem b.ptr

variable {A : Arena} {P P' : Pool} {S S' : Sockets} {rest : List Mbuf} {pcbs : Finset Nat}
  {held : List Holding}
  {idle : List Nat} {p : Nat}

theorem mclfree_kmem {c : Nat} (released : mclfree A P c = some P') : P'.kmem = P.kmem := by
  simp only [mclfree, Pool.count] at released
  split at released
  · cases released
  · rename_i found
    split at found
    · cases found
      split at released <;> cases released <;> rfl
    · cases found

theorem mbufFree_allots {m : Mbuf} (allots : Allots A P.kmem (hold m :: held) idle)
    (freed : mbufFree A P m = some P') :
    Allots A P'.kmem held (m.addr :: idle) := by
  obtain ⟨k, given, after⟩ := allots.free (show msize ≤ Kmem.maxAllocSave by decide)
  have untyped : (P.untype m.type).kmem = P.kmem := rfl
  unfold mbufFree at freed
  generalize P.untype m.type = Q at *
  dsimp only at freed
  split at freed
  · cases freed
  · rename_i R released
    have same : R.kmem = P.kmem := by
      rw [← untyped]
      split at released
      · split at released
        · cases released
        · exact mclfree_kmem released
      · cases released
        rfl
    rw [same, show kmemFree A P.kmem m.addr = some k from given] at freed
    cases freed
    exact after

theorem mbufFreem_allots {chain : Chain} (allots : Allots A P.kmem (chain.map hold ++ held) idle)
    (freed : mbufFreem A P chain = some P') : Allots A P'.kmem held ((addrs chain).reverse ++ idle) := by
  induction chain generalizing P idle with
  | nil =>
    cases freed
    exact allots
  | cons m chain ih =>
    rw [mbufFreem] at freed
    split at freed
    · cases freed
    · rename_i Q call
      have after := ih (mbufFree_allots allots call) freed
      rw [addrs, List.map_cons, List.reverse_cons, List.append_assoc]
      exact after

theorem InUse.freeInpcb (use : InUse A S rest pcbs) (pcb : S.so.pcb = some p) :
    ∃ S', Sock.freeInpcb A S p = some S' ∧ S'.pool.freed = (addrs S.options).reverse ++ S.pool.freed ∧
      S'.table = Inet.freeInpcb S.table p ∧ S'.so.addr = S.so.addr ∧
      ∃ held idle, Allots A S'.pool.kmem (⟨S.so.addr, sizeofSocket⟩ :: held) (p :: idle) := by
  have options : S.options = S.option p := by
    rw [Sockets.options, pcb]
  have blocks : S.blocks = [⟨p, sizeofInPcb⟩, ⟨S.so.addr, sizeofSocket⟩] := by
    rw [Sockets.blocks, pcb]
  have first : (S.so.rcvsb.mb.all ++ (S.options ++ rest)).Perm
      (S.options ++ (S.so.rcvsb.mb.all ++ rest)) := by
    rw [← List.append_assoc, ← List.append_assoc]
    exact List.perm_append_comm.append_right rest
  obtain ⟨P', freed, -, result⟩ := (use.wf.perm first).freem
  have moved := use.blocks.perm ((first.map hold).append_right S.blocks)
  rw [List.map_append, List.append_assoc] at moved
  have without := mbufFreem_allots moved freed
  have order : ((S.so.rcvsb.mb.all ++ rest).map hold ++ S.blocks).Perm
      (⟨p, sizeofInPcb⟩ :: ⟨S.so.addr, sizeofSocket⟩ :: (S.so.rcvsb.mb.all ++ rest).map hold) := by
    rw [blocks]
    exact List.perm_append_comm
  obtain ⟨k, given, after⟩ := (without.perm order).free (show sizeofInPcb ≤ Kmem.maxAllocSave by decide)
  rw [options] at freed result
  refine ⟨{ S with
    so := { S.so with pcb := none }
    pool := { P' with kmem := k }
    table := Inet.freeInpcb S.table p }, ?_, ?_, rfl, rfl, _, _, after⟩
  · simp only [Sock.freeInpcb, freed, given]
  · rw [options]
    exact result.freed

theorem InUse.soclose (use : InUse A S rest pcbs) :
    ∃ S', Sock.soclose A S = some (0, S') ∧ S'.pool.freed = (addrs S.options).reverse ++ S.pool.freed ∧
      (∀ p, S.so.pcb = some p → p ∉ S'.table.pcbqueue ∧ ∀ i, p ∉ S'.table.pcbhashtbl i) ∧
      ∀ b ∈ S.blocks, Idle S'.pool.kmem b.ptr := by
  have small : sizeofSocket ≤ Kmem.maxAllocSave := by decide
  cases pcb : S.so.pcb with
  | none =>
    have options : S.options = [] := by
      rw [Sockets.options, pcb]
    have blocks : S.blocks = [⟨S.so.addr, sizeofSocket⟩] := by
      rw [Sockets.blocks, pcb]
    have order := use.blocks.perm List.perm_append_comm
    rw [blocks] at order
    obtain ⟨k, given, after⟩ := order.free small
    refine ⟨{ S with
      so := { S.so with sndsb := sbrelease S.so.sndsb }, pool := { S.pool with kmem := k } }, ?_,
        ?_, nofun, ?_⟩
    · have free : kmemFree A S.pool.kmem S.so.addr = some k := given
      simp only [Sock.soclose, pcb, Option.isSome_none, Bool.false_eq_true, if_false, sofree, free]
    · rw [options]
      rfl
    · intro b member
      rw [blocks, List.mem_singleton] at member
      rw [member]
      exact after.idle_of_mem List.mem_cons_self
  | some p =>
    have blocks : S.blocks = [⟨p, sizeofInPcb⟩, ⟨S.so.addr, sizeofSocket⟩] := by
      rw [Sockets.blocks, pcb]
    obtain ⟨S₁, detached, freed, table, same, held, idle, allots⟩ := use.freeInpcb pcb
    obtain ⟨k, given, after⟩ := allots.free small
    have filed := use.filed.free (p := p)
    rw [← table] at filed
    refine ⟨{ S₁ with
      so := { S₁.so with sndsb := sbrelease S₁.so.sndsb }, pool := { S₁.pool with kmem := k } }, ?_,
        freed, ?_, ?_⟩
    · have free : kmemFree A S₁.pool.kmem S₁.so.addr = some k := by
        rw [same]
        exact given
      simp only [Sock.soclose, pcb, Option.isSome_some, if_true, detach, detached, sofree, free]
    · rintro q here
      cases here
      constructor
      · apply List.count_eq_zero.mp
        rw [filed.queue p, if_neg (Finset.notMem_erase p pcbs)]
      · intro i
        apply List.count_eq_zero.mp
        rw [filed.chains p i, if_neg (fun on => Finset.notMem_erase p pcbs on.1)]
    · intro b member
      rw [blocks, List.mem_cons, List.mem_singleton] at member
      rcases member with rfl | rfl
      · exact after.idle_of_mem (List.mem_cons_of_mem _ List.mem_cons_self)
      · exact after.idle_of_mem List.mem_cons_self

theorem mget_allots {m : Mbuf} {type : Nat} {pkt : Bool} (allots : Allots A P.kmem held idle)
    (given : mget A P type pkt = (some m, P')) : Allots A P'.kmem (hold m :: held) [] := by
  unfold mget at given
  rcases allots.malloc (show msize + 4095 < 2^32 by decide) with failed | ⟨p, k, call, nonzero, after⟩
  · rw [failed] at given
    cases given
  · rw [call] at given
    simp only [nonzero, if_false] at given
    cases given
    exact after

theorem mbufTake_allots {m : Mbuf} {type : Nat} {pkt : Bool} (allots : Allots A P.kmem held idle)
    (given : mbufTake A P type pkt = (some m, P')) : Allots A P'.kmem (hold m :: held) [] := by
  unfold mbufTake at given
  split at given
  · cases given
  · split at given
    · rename_i first
      cases given
      exact mget_allots allots first
    · rename_i Q first
      apply mget_allots _ given
      · exact idle
      · unfold mget at first
        rcases allots.malloc (show msize + 4095 < 2^32 by decide) with failed | ⟨p, k, call, nonzero, -⟩
        · rw [failed] at first
          cases first
          exact allots
        · rw [call] at first
          simp only [nonzero, if_false] at first
          cases first

theorem wf_allots {live : List Mbuf} (wf : Wf A P live) : Allots A P.kmem (live.map hold) [] := by
  obtain ⟨pages, fixed, foreign, laid, -⟩ := wf.placed
  obtain ⟨chunks, regions, inv⟩ := laid.kmem
  exact ⟨_, foreign, chunks, regions, inv, nofun⟩

theorem Wf.take_block {live : List Mbuf} {size : Nat} {k : Kmem.State} (wf : Wf A P live)
    (bound : size + 4095 < 2^32)
    (call : kmemMalloc A P.kmem size = (p, k)) (nonzero : p ≠ 0) : Wf A { P with kmem := k } live := by
  rcases wf.placed.buffer bound with failed | ⟨q, k', given, -, placed, -, clusters⟩
  · rw [failed] at call
    cases call
    exact absurd rfl nonzero
  · rw [given] at call
    cases call
    exact wf.buffer_write placed clusters (SameBut.refl _ _ _)

theorem take_block_allots {size : Nat} {k k' : Kmem.State} (allots : Allots A k held idle)
    (bound : size + 4095 < 2^32)
    (call : kmemMalloc A k size = (p, k')) (nonzero : p ≠ 0) : Allots A k' (⟨p, size⟩ :: held) [] := by
  rcases allots.malloc bound with failed | ⟨q, k₁, given, -, after⟩
  · rw [failed] at call
    cases call
    exact absurd rfl nonzero
  · rw [given] at call
    cases call
    exact after

theorem InUse.create {live : List Mbuf} {T : Inpcbtable} {so : Nat} {k k' : Kmem.State}
    {options : Inet.SoOptions} {snd rcv : Sockbuf} (wf : Wf A P live) (filed : Inet.Filed T pcbs)
    (socket : kmemMalloc A P.kmem sizeofSocket = (so, k)) (found : so ≠ 0)
    (block : kmemMalloc A k sizeofInPcb = (p, k')) (nonzero : p ≠ 0) (fresh : p ∉ pcbs)
    (empty : rcv.mb = .null) :
    InUse A ⟨{ P with kmem := k' }, (Inet.allocInpcb T p options).2, fun _ => [], ⟨so, some p, snd, rcv⟩⟩ live
      (insert p pcbs) := by
  have first := Wf.take_block wf (show sizeofSocket + 4095 < 2^32 by decide) socket found
  have second := Wf.take_block first (show sizeofInPcb + 4095 < 2^32 by decide) block nonzero
  have blocks := take_block_allots (wf_allots wf) (show sizeofSocket + 4095 < 2^32 by decide) socket found
  have both := take_block_allots blocks (show sizeofInPcb + 4095 < 2^32 by decide) block nonzero
  have none : rcv.mb.all = [] := by rw [empty]; rfl
  refine ⟨?_, ?_, filed.alloc fresh nonzero⟩
  · show Wf A _ (rcv.mb.all ++ ([] ++ live))
    rw [none]
    exact second
  · show Allots A k' ((rcv.mb.all ++ ([] ++ live)).map hold ++ [⟨p, sizeofInPcb⟩, ⟨so, sizeofSocket⟩]) []
    rw [none]
    exact both.perm (@List.perm_append_comm _ [_, _] _)

theorem InUse.append {addr : Nat} {data : Ptr} {rest' : List Mbuf} {sb : Sockbuf} (use : InUse A S rest pcbs)
    (owned : rest.Perm (data.chain ++ rest'))
    (call : sbappendaddr A S.pool S.so.rcvsb addr data .null = some (true, P, sb)) :
    InUse A { S with pool := P, so := { S.so with rcvsb := sb } } rest' pcbs := by
  obtain ⟨m, queue, wf, -, -, -⟩ := append_record use.wf call
  have all : sb.mb.all = S.so.rcvsb.mb.all ++ m :: data.chain := by
    rw [queue, Ptr.all, Ptr.records_queueBehind, List.flatten_append]
    exact congrArg (S.so.rcvsb.mb.all ++ ·) (List.append_nil _)
  have order : (m :: (S.so.rcvsb.mb.all ++ (S.options ++ rest))).Perm
      (sb.mb.all ++ (S.options ++ rest')) := by
    rw [all, List.append_assoc, List.cons_append]
    apply (List.Perm.cons m _).trans List.perm_middle.symm
    apply List.Perm.append_left
    apply (owned.append_left S.options).trans
    rw [← List.append_assoc, ← List.append_assoc]
    exact List.perm_append_comm.append_right rest'
  refine ⟨wf.perm order, ?_, use.filed⟩
  rcases sbappendaddr_cases call with ⟨wrong, -⟩ | ⟨n, P₁, -, -, -, -, got, filled, sb'⟩
  · cases wrong
  · have same : n.addr = m.addr := by
      rw [sb'] at queue
      have records := congrArg Ptr.records queue
      simp only [Sockbuf.queue, Ptr.records_queueBehind, List.append_cancel_left_eq] at records
      cases records
      rfl
    have kmem : P.kmem = P₁.kmem := by
      unfold Pool.fill at filled
      split at filled <;> cases filled
      rfl
    have after := mbufTake_allots use.blocks got
    rw [← kmem, hold, same] at after
    exact after.perm ((order.map hold).append_right S.blocks)

theorem Ptr.all_eq_nil {q : Ptr} (none : q.all = []) : q = .null := by
  cases q with
  | null => rfl
  | mbuf m next nextpkt => cases none

/-- Closing a socket releases all it has if and only if nothing is queued in its receive buffer. -/
theorem soclose_releases_iff (use : InUse A S rest pcbs) :
    ∃ S', soclose A S = some (0, S') ∧ (Closed S S' ↔ S.so.rcvsb.mb = .null) := by
  obtain ⟨S', returned, freed, unlinked, released⟩ := use.soclose
  refine ⟨S', returned, ?_, ?_⟩
  · intro closed
    obtain ⟨gone, logged, once⟩ := closed.freed
    have same : gone = (addrs S.options).reverse := List.append_cancel_right (logged.symm.trans freed)
    apply Ptr.all_eq_nil
    apply List.eq_nil_iff_forall_not_mem.mpr
    intro m queued
    have apart := use.wf.nodup
    rw [addrs_append, addrs_append] at apart
    have elsewhere : m.addr ∉ addrs S.options := by
      intro inOptions
      exact (List.nodup_append.mp apart).2.2 m.addr (List.mem_map_of_mem queued) m.addr
        (List.mem_append_left _ inOptions) rfl
    have count := once m queued
    rw [same, List.count_reverse, List.count_eq_zero.mpr elsewhere] at count
    cases count
  · intro empty
    refine ⟨⟨_, freed, ?_⟩, unlinked, released⟩
    intro m queued
    rw [empty] at queued
    cases queued

abbrev socketBlock : Nat × Kmem.State := kmemMalloc Kmem.board named.kmem sizeofSocket
abbrev pcbBlock : Nat × Kmem.State := kmemMalloc Kmem.board socketBlock.2 sizeofInPcb
abbrev opened : Sockets :=
  ⟨{ named with kmem := pcbBlock.2 },
    (Inet.allocInpcb (Inet.initInpcb 16 fun _ => Inet.zeroPcb ⟨false, false, false, false⟩) pcbBlock.1
      ⟨false, false, false, false⟩).2,
    fun _ => [], ⟨socketBlock.1, some pcbBlock.1, (soreserve unused unused 9216 41600).2.1,
      (soreserve unused unused 9216 41600).2.2⟩⟩

abbrev delivered : Bool × Pool × Sockbuf :=
  (sbappendaddr Kmem.board opened.pool opened.so.rcvsb 0x1000 packet .null).getD (false, named, unused)
abbrev filled : Sockets :=
  { opened with pool := delivered.2.1, so := { opened.so with rcvsb := delivered.2.2 } }

theorem opened_answers :
    (socketBlock.1 ≠ 0 ∧ pcbBlock.1 ≠ 0) ∧
      (sbappendaddr Kmem.board opened.pool opened.so.rcvsb 0x1000 packet .null).isSome = true ∧
        delivered.1 = true := by
  decide +kernel

theorem opened_inUse : InUse Kmem.board opened [payload] {pcbBlock.1} := by
  have filed : Inet.Filed (Inet.initInpcb 16 fun _ => Inet.zeroPcb ⟨false, false, false, false⟩) ∅ :=
    ⟨fun _ => rfl, fun _ _ => rfl⟩
  have use := @InUse.create Kmem.board named ∅ _ _ _ _ _ _ ⟨false, false, false, false⟩
    (soreserve unused unused 9216 41600).2.1 (soreserve unused unused 9216 41600).2.2 named_wf filed
    (Prod.mk.eta (p := socketBlock)).symm opened_answers.1.1
      (Prod.mk.eta (p := pcbBlock)).symm opened_answers.1.2
    (Finset.notMem_empty _) rfl
  exact use

theorem empty_socket_released :
    ∃ S', soclose Kmem.board opened = some (0, S') ∧ (Closed opened S' ↔ opened.so.rcvsb.mb = .null) :=
  soclose_releases_iff opened_inUse

theorem appended_eq {o : Option (Bool × Pool × Sockbuf)} {d r : Bool × Pool × Sockbuf} (result : r = o.getD d)
    (ended : o.isSome = true) (code : r.1 = true) : o = some (true, r.2.1, r.2.2) := by
  cases o with
  | none => cases ended
  | some a =>
    cases result
    rw [← code]
    rfl

theorem filled_inUse : InUse Kmem.board filled [] {pcbBlock.1} := by
  obtain ⟨-, ended, code⟩ := opened_answers
  have result : delivered = (sbappendaddr Kmem.board opened.pool opened.so.rcvsb 0x1000 packet .null).getD
      (false, named, unused) := rfl
  have owned : [payload].Perm (packet.chain ++ []) := List.Perm.refl [payload]
  exact opened_inUse.append owned (appended_eq result ended code)

theorem queued_datagram_leaks :
    InUse Kmem.board filled [] {pcbBlock.1} ∧ ∃ S', soclose Kmem.board filled = some (0, S') ∧
      ¬ Closed filled S' := by
  obtain ⟨S', returned, freed, -, -⟩ := filled_inUse.soclose
  refine ⟨filled_inUse, S', returned, fun closed => ?_⟩
  obtain ⟨gone, logged, once⟩ := closed.freed
  have none : gone = [] := by
    have same := logged.symm.trans freed
    exact List.append_cancel_right same
  have queued : (mbufOf arrived).addr ∈ filled.so.rcvsb.mb.all.map Mbuf.addr := by decide +kernel
  obtain ⟨m, member, -⟩ := List.mem_map.mp queued
  have count := once m member
  rw [none] at count
  cases count

end Embryo.Sock
