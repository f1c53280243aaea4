import Embryo.Net.Model
import Embryo.Uipc.Reserve

namespace Embryo.Net

open Embryo.Machine Embryo.Uipc
open Embryo.Kmem (Arena)

/-- The mbufs the network code holds on to: in the send queues, in the ARP entries, in the input
    queue, and with the drivers. -/
def places (S : Stack) : List Mbuf :=
  gather S.ifps (fun i => (S.ifnet i).sndq.flatten) ++
    (gather S.las (fun l => (S.la l).hold) ++ (S.ipintrq.flatten ++ S.sent.flatten))

structure Sound (S : Stack) : Prop where
  ifps : S.ifps.Nodup
  las : S.las.Nodup
  entries : ∀ r l, (S.rtentry r).rtLlinfo = some l → l ∈ S.las

def Ifnet.unqueued (i : Ifnet) : Ifnet := { i with sndq := [] }

def Rtentry.fixed (r : Rtentry) : Rtentry := { r with reject := false, gwroute := none }

/-- What sending leaves alone: all but queues, held packets, `RTF_REJECT` and `rt_gwroute`. -/
structure Steady (S S' : Stack) : Prop where
  ifps : S'.ifps = S.ifps
  las : S'.las = S.las
  ifaddrs : S'.inIfaddrlist = S.inIfaddrlist
  ifnet : ∀ i, (S'.ifnet i).unqueued = (S.ifnet i).unqueued
  rtentry : ∀ r, (S'.rtentry r).fixed = (S.rtentry r).fixed
  la : ∀ l, (S'.la l).rt = (S.la l).rt

variable {A : Arena} {env : Env} {S S' S'' : Stack} {ifp : Nat} {m : Chain} {watch : List Nat}
  {others : List Mbuf}

theorem Steady.refl (S : Stack) : Steady S S := ⟨rfl, rfl, rfl, fun _ => rfl, fun _ => rfl, fun _ => rfl⟩

theorem Steady.trans (first : Steady S S') (second : Steady S' S'') : Steady S S'' where
  ifps := second.ifps.trans first.ifps
  las := second.las.trans first.las
  ifaddrs := second.ifaddrs.trans first.ifaddrs
  ifnet := fun i => (second.ifnet i).trans (first.ifnet i)
  rtentry := fun r => (second.rtentry r).trans (first.rtentry r)
  la := fun l => (second.la l).trans (first.la l)

theorem Sound.steady (sound : Sound S) (steady : Steady S S') : Sound S' := by
  refine ⟨steady.ifps ▸ sound.ifps, steady.las ▸ sound.las, ?_⟩
  intro r l link
  have same := congrArg Rtentry.rtLlinfo (steady.rtentry r)
  rw [steady.las]
  exact sound.entries r l (same.symm.trans link)

theorem Steady.setIf (S : Stack) (ifp : Nat) (queue : List Chain) :
    Steady S (S.setIf ifp (fun i => { i with sndq := queue })) := by
  refine { Steady.refl S with ifnet := ?_ }
  intro i
  by_cases here : i = ifp
  · subst here
    simp [Stack.setIf, Ifnet.unqueued]
  · simp [Stack.setIf, here]

theorem Steady.setRt (S : Stack) (rt : Nat) {f : Rtentry → Rtentry}
    (kept : ∀ r, (f r).fixed = r.fixed) :
    Steady S (S.setRt rt f) := by
  refine { Steady.refl S with rtentry := ?_ }
  intro r
  by_cases here : r = rt
  · subst here
    simpa [Stack.setRt] using kept (S.rtentry r)
  · simp [Stack.setRt, here]

theorem Steady.setLa (S : Stack) (la : Nat) {f : LlinfoArp → LlinfoArp} (kept : ∀ l, (f l).rt = l.rt) :
    Steady S (S.setLa la f) := by
  refine { Steady.refl S with la := ?_ }
  intro l
  by_cases here : l = la
  · subst here
    simpa [Stack.setLa] using kept (S.la l)
  · simp [Stack.setLa, here]

theorem Steady.dequeue (S : Stack) (ifp n : Nat) : Steady S (S.dequeue ifp n) :=
  { Steady.setIf S ifp ((S.ifnet ifp).sndq.drop n) with }

theorem update_comp {α β : Type} (f : Nat → α) (k : Nat) (v : α) (g : α → β) :
    (fun i => g (Function.update f k v i)) = Function.update (fun i => g (f i)) k (g v) := by
  funext i
  by_cases here : i = k
  · subst here
    simp
  · simp [here]

theorem places_setIf (sound : Sound S) (member : ifp ∈ S.ifps) (queue : List Chain) :
    (places (S.setIf ifp (fun i => { i with sndq := queue })) ++ (S.ifnet ifp).sndq.flatten).Perm
      (places S ++ queue.flatten) := by
  have moved := gather_update sound.ifps member (fun i => (S.ifnet i).sndq.flatten) queue.flatten
  have slots : gather S.ifps (fun i =>
    ((S.setIf ifp (fun i => { i with sndq := queue })).ifnet i).sndq.flatten) =
      gather S.ifps (Function.update (fun i => (S.ifnet i).sndq.flatten) ifp queue.flatten) := by
    rw [← update_comp S.ifnet ifp { S.ifnet ifp with sndq := queue } (fun i => i.sndq.flatten)]
    rfl
  apply List.perm_iff_count.mpr
  intro e
  have count := moved.count_eq e
  rw [← slots] at count
  simp only [places, List.count_append] at count ⊢
  simp only [Stack.setIf] at count ⊢
  omega

theorem places_enqueue (sound : Sound S) (member : ifp ∈ S.ifps) :
    (places (S.enqueue ifp m)).Perm (m ++ places S) := by
  show (places (S.setIf ifp (fun i => { i with sndq := (S.ifnet ifp).sndq ++ [m] }))).Perm _
  have moved := @places_setIf S ifp sound member ((S.ifnet ifp).sndq ++ [m])
  apply List.perm_iff_count.mpr
  intro e
  have count := moved.count_eq e
  simp only [List.count_append, List.flatten_append, List.flatten_cons, List.flatten_nil,
    List.append_nil] at *
  omega

theorem places_dequeue (sound : Sound S) (member : ifp ∈ S.ifps) (n : Nat) :
    (places (S.dequeue ifp n)).Perm (places S) := by
  have moved := @places_setIf S ifp sound member ((S.ifnet ifp).sndq.drop n)
  have split : (S.ifnet ifp).sndq.flatten =
      ((S.ifnet ifp).sndq.take n).flatten ++ ((S.ifnet ifp).sndq.drop n).flatten := by
    rw [← List.flatten_append, List.take_append_drop]
  apply List.perm_iff_count.mpr
  intro e
  have count := moved.count_eq e
  rw [split] at count
  have sent : List.count e (places (S.dequeue ifp n)) =
      List.count e (places (S.setIf ifp (fun i => { i with sndq := (S.ifnet ifp).sndq.drop n }))) +
        List.count e ((S.ifnet ifp).sndq.take n).flatten := by
    simp only [places, Stack.dequeue, List.count_append, List.flatten_append]
    simp only [Stack.setIf]
    omega
  simp only [List.count_append] at count
  omega

theorem places_hold (sound : Sound S) {la : Nat} (member : la ∈ S.las) (held : Chain) :
    (places (S.setLa la (fun l => { l with hold := held })) ++ (S.la la).hold).Perm (places S ++ held) := by
  have moved := gather_update sound.las member (fun l => (S.la l).hold) held
  have slots : gather S.las (fun l => ((S.setLa la (fun l => { l with hold := held })).la l).hold) =
      gather S.las (Function.update (fun l => (S.la l).hold) la held) := by
    rw [← update_comp S.la la { S.la la with hold := held } (fun l => l.hold)]
    rfl
  apply List.perm_iff_count.mpr
  intro e
  have count := moved.count_eq e
  rw [← slots] at count
  simp only [places, List.count_append] at count ⊢
  simp only [Stack.setLa] at count ⊢
  omega

/-- The packet `m` has been taken over: of the mbufs in use, with those taken since, each has been
    freed once or is in one place, but for a few `lost` ones that `watch` does not name. -/
structure Consumed (A : Arena) (watch : List Nat) (S : Stack) (m : Chain) (others : List Mbuf)
    (S' : Stack) : Prop where
  steady : Steady S S'
  moved : ∃ lost, Moved A watch S.pool S'.pool (m ++ (places S ++ others)) (lost ++ (places S' ++ others)) ∧
    ∀ e ∈ lost, e.addr ∉ watch

theorem etherHdr_length (dst src : Mac) (pro : UInt16) : (etherHdr dst src pro).length = sizeofEtherHdr := by
  simp [etherHdr, bytes16, sizeofEtherHdr]

theorem Wf.header {P : Pool} {first : Mbuf} {live : List Mbuf} {len : Nat} (wf : Wf A P (first :: live))
    (window : Windowed first len) {header : List UInt8} (size : header.length = len) (watch : List Nat) :
    Moved A watch P { P with mem := write P.mem first.data header } (first :: live) (first :: live) := by
  refine Moved.same watch ?_ rfl rfl (List.Perm.refl _)
  exact wf.write_window window (SameBut.write P.mem (Nat.le_refl _) (by omega))

theorem Consumed.freed (code : Nat) (wf : Wf A S.pool (m ++ (places S ++ others))) (watch : List Nat) :
    ∃ S', freeing A S m code = some (code, S') ∧ Consumed A watch S m others S' := by
  obtain ⟨P', freed, moved, _⟩ := wf.freem_moved watch
  refine ⟨S.setPool P', by
    simp only [freeing, freed], ⟨⟨rfl, rfl, rfl, fun _ => rfl, fun _ => rfl, fun _ => rfl⟩,
    [], moved, nofun⟩⟩

variable {first : Mbuf} {rest : Chain}

def Queueable (A : Arena) (P : Pool) (i : Ifnet) (first : Mbuf) : Prop :=
  Reservable A P first sizeofEtherHdr ∧ i.sndq.length < i.maxlen

theorem freeing_frees {m : Chain} {P : Pool} (code : Nat) (freed : mbufFreem A S.pool m = some P) :
    freeing A S m code = some (code, S.setPool P) := by
  rw [freeing, freed]

theorem etherSend_consumes (sound : Sound S) (member : ifp ∈ S.ifps)
    (wf : Wf A S.pool (first :: rest ++ (places S ++ others))) (fits : ∀ e ∈ first :: rest, e.Fit)
    (watched : ∀ a ∈ watch, a ∈ addrs (first :: rest ++ (places S ++ others))) (macaddr : Mac)
    (ethertype : UInt16) :
    ∃ code S', etherSend A env S ifp (first :: rest) macaddr ethertype = some (code, S') ∧
      Consumed A watch S (first :: rest) others S' ∧
      (code = 0 ↔ Queueable A S.pool (S.ifnet ifp) first) := by
  rcases wf.reserve fits watched sizeofEtherHdr with
    ⟨none, P', failed, moved, _⟩ | ⟨room, head, tail, P', given, moved, _, reserved⟩
  · refine ⟨enobufs, S.setPool P', by simp only [etherSend, failed], ⟨?_, [], moved, nofun⟩, ?_⟩
    · exact ⟨rfl, rfl, rfl, fun _ => rfl, fun _ => rfl, fun _ => rfl⟩
    · exact ⟨fun zero => absurd zero (by decide), fun queueable => absurd queueable.1 none⟩
  · let header := etherHdr macaddr (S.ifnet ifp).ethAddr ethertype
    let T := S.setPool { P' with mem := write P'.mem head.data header }
    have written : Moved A watch P' T.pool (head :: tail ++ (places S ++ others))
        (head :: tail ++ (places S ++ others)) :=
      Wf.header moved.wf reserved.window (etherHdr_length _ _ _) watch
    have soundT : Sound T := ⟨sound.ifps, sound.las, sound.entries⟩
    by_cases full : (S.ifnet ifp).sndq.length ≥ (S.ifnet ifp).maxlen
    · have same := places_dequeue soundT member (T.ifnet ifp).sndq.length
      have order : (head :: tail ++ (places S ++ others)).Perm
          (head :: tail ++ (places (T.flush ifp) ++ others)) :=
        (same.symm.append_right others).append_left _
      have wfT : Wf A (T.flush ifp).pool (head :: tail ++ (places (T.flush ifp) ++ others)) :=
        written.wf.perm order
      obtain ⟨P₂, freed, gone, _⟩ := wfT.freem_moved watch
      refine ⟨enobufs, (T.flush ifp).setPool P₂, ?_, ⟨?_, [], ?_, nofun⟩, ?_⟩
      · simp only [etherSend, given]
        exact (if_pos full).trans (freeing_frees enobufs freed)
      · exact { Steady.dequeue T ifp (T.ifnet ifp).sndq.length with }
      · exact (moved.trans written).trans (gone.perm order.symm (List.Perm.refl _))
      · constructor
        · intro zero
          exact absurd zero (by decide)
        · intro queueable
          exact absurd queueable.2 (by omega)
    · let U := T.enqueue ifp (head :: tail)
      have steadyU : Steady T U := Steady.setIf T ifp ((T.ifnet ifp).sndq ++ [head :: tail])
      have soundU : Sound U := soundT.steady steadyU
      have memberU : ifp ∈ U.ifps := member
      have queued := @places_enqueue T ifp (head :: tail) soundT member
      have started := places_dequeue soundU memberU (env.ifStart (U.ifnet ifp).sndq)
      have order : (head :: tail ++ (places S ++ others)).Perm (places (U.start env ifp) ++ others) := by
        rw [← List.append_assoc]
        exact ((started.trans queued).symm).append_right others
      refine ⟨0, U.start env ifp, ?_, ⟨?_, [], ?_, nofun⟩, ?_⟩
      · simp only [etherSend, given]
        exact if_neg full
      · have next := steadyU.trans (Steady.dequeue U ifp (env.ifStart (U.ifnet ifp).sndq))
        exact { next with }
      · exact (moved.trans written).perm (List.Perm.refl _) order
      · simp only [Queueable, room, true_and, true_iff]
        omega

theorem ipArp_length (op : UInt16) (sha : Mac) (spa : UInt32) (dha : Mac) (dpa : UInt32) :
    (ipArp op sha spa dha dpa).length = sizeofIpArp := by
  simp [ipArp, bytes16, bytes32, sizeofIpArp]

def requestMbuf (m : Mbuf) : Mbuf :=
  { m with
    len := sizeofIpArp
    pkthdr := { m.pkthdr with mpLen := sizeofIpArp }
    data := m.data + (mhlen - sizeofIpArp) / 4 * 4 }

theorem requestMbuf_window (left : Stale) (p type : Nat) :
    Windowed (requestMbuf (initial left p type true)) sizeofIpArp := by
  constructor <;>
    simp only [requestMbuf, initial, noFlags, Mbuf.room, Mbuf.pktdat, Region.stop, mhlen, mlen, msize,
      sizeofMHdr, sizeofPkthdr, sizeofIpArp, if_true, if_false, Bool.false_eq_true] <;>
    omega

theorem arprequest_returns (sound : Sound S) (member : ifp ∈ S.ifps) (wf : Wf A S.pool (places S ++ others))
    (watched : ∀ a ∈ watch, a ∈ addrs (places S ++ others)) (sip tip : UInt32) (macaddr : Mac) :
    ∃ S', arprequest A env S ifp sip tip macaddr = some S' ∧ Consumed A watch S [] others S' := by
  rcases @Wf.take_moved A watch S.pool _ wf mtData (by decide) true watched with
    ⟨_, failed⟩ | ⟨p, k, _, _, given, moved⟩
  · refine ⟨S.setPool S.pool, by
      simp only [arprequest, mbufGetpkt, failed], ⟨Steady.refl S, [], ?_, List.forall_mem_nil _⟩⟩
    exact Moved.refl watch wf
  · let fresh := initial (S.pool.stale p) p mtData true
    let m := requestMbuf fresh
    let request := ipArp arpopRequest macaddr sip (Vector.replicate 6 0) tip
    let T := S.setPool { took S.pool k p mtData with
      mem := write (took S.pool k p mtData).mem m.data request }
    have soundT : Sound T := ⟨sound.ifps, sound.las, sound.entries⟩
    have adjusted : Wf A (took S.pool k p mtData) (m :: (places S ++ others)) :=
      moved.wf.adjust rfl rfl rfl (fun _ => rfl)
    have written := Wf.header adjusted (requestMbuf_window (S.pool.stale p) p mtData)
      (ipArp_length arpopRequest macaddr sip (Vector.replicate 6 0) tip) watch
    have filled : Moved A watch (took S.pool k p mtData) (took S.pool k p mtData)
        (fresh :: (places S ++ others)) (m :: (places S ++ others)) :=
      Moved.same watch adjusted rfl rfl (List.Perm.refl _)
    have ready : Moved A watch S.pool T.pool (places S ++ others) ([m] ++ (places S ++ others)) :=
      moved.trans (filled.trans written)
    have unwatched : m.addr ∉ watch := by
      intro watching
      have unique := (List.nodup_cons.mp ready.wf.nodup).1
      exact unique (watched m.addr watching)
    have call : arprequest A env S ifp sip tip macaddr =
        (etherUnspec A env T ifp [m] etherBroadaddr (htons ethertypeArp)).map Prod.snd := by
      simp only [arprequest, mbufGetpkt, given]
      split
      · next failed => exact (congrArg (Option.map Prod.snd) failed).symm
      · next sent => exact (congrArg (Option.map Prod.snd) sent).symm
    rw [call, etherUnspec]
    by_cases up : (T.ifnet ifp).up
    · rw [if_neg (by simp [up])]
      have fits : ∀ e ∈ [m], e.Fit := by
        intro e isM
        rw [List.mem_singleton.mp isM]
        have window := requestMbuf_window (S.pool.stale p) p mtData
        exact ⟨window.low, window.high⟩
      have stillWatched : ∀ a ∈ watch, a ∈ addrs ([m] ++ (places T ++ others)) := by
        intro a watching
        rw [addrs_append]
        exact List.mem_append_right _ (watched a watching)
      obtain ⟨code, S', sent, consumed, _⟩ := @etherSend_consumes A env T ifp watch others m [] soundT member
        ready.wf fits stillWatched etherBroadaddr (htons ethertypeArp)
      obtain ⟨lost, gone, none⟩ := consumed.moved
      refine ⟨S', by rw [sent, Option.map_some], { consumed.steady with }, lost, ready.trans gone, none⟩
    · rw [if_pos up]
      refine ⟨T, rfl, ⟨rfl, rfl, rfl, fun _ => rfl, fun _ => rfl, fun _ => rfl⟩, [m], ready, ?_⟩
      intro e isM
      rw [List.mem_singleton.mp isM]
      exact unwatched

def Stack.framed (S : Stack) (la : Nat → LlinfoArp) (log : ArpLog) : Stack := { S with la, log }

theorem freeing_frame (A : Arena) (S : Stack) (m : Chain) (code : Nat) (la : Nat → LlinfoArp) (log : ArpLog) :
    freeing A (S.framed la log) m code = (freeing A S m code).map (Prod.map id (·.framed la log)) := by
  have pool : (S.framed la log).pool = S.pool := rfl
  unfold freeing
  rw [pool]
  cases mbufFreem A S.pool m <;> rfl

theorem etherSend_frame (A : Arena) (env : Env) (S : Stack) (ifp : Nat) (m : Chain) (macaddr : Mac)
    (ethertype : UInt16) (la : Nat → LlinfoArp) (log : ArpLog) :
    etherSend A env (S.framed la log) ifp m macaddr ethertype =
      (etherSend A env S ifp m macaddr ethertype).map (Prod.map id (·.framed la log)) := by
  have pool : (S.framed la log).pool = S.pool := rfl
  unfold etherSend
  rw [pool]
  cases mbufReserve A S.pool m sizeofEtherHdr with
  | none => rfl
  | some result =>
    obtain ⟨chain, P⟩ := result
    cases chain with
    | nil => rfl
    | cons first rest =>
      dsimp only
      by_cases full : (S.ifnet ifp).sndq.length ≥ (S.ifnet ifp).maxlen
      · refine (if_pos full).trans (Eq.trans ?_ (congrArg _ (if_pos full).symm))
        let header := etherHdr macaddr (S.ifnet ifp).ethAddr ethertype
        exact freeing_frame A ((S.setPool { P with mem := write P.mem first.data header }).flush
          ifp) (first :: rest)
          enobufs la log
      · refine (if_neg full).trans (Eq.trans ?_ (congrArg _ (if_neg full).symm))
        rfl

theorem arprequest_frame (A : Arena) (env : Env) (S : Stack) (ifp : Nat) (sip tip : UInt32) (macaddr : Mac)
    (la : Nat → LlinfoArp) (log : ArpLog) :
    arprequest A env (S.framed la log) ifp sip tip macaddr =
      (arprequest A env S ifp sip tip macaddr).map (·.framed la log) := by
  have pool : (S.framed la log).pool = S.pool := rfl
  unfold arprequest
  rw [pool]
  cases mbufGetpkt A S.pool mtData with
  | mk given P =>
    cases given with
    | none => rfl
    | some m =>
      dsimp only
      unfold etherUnspec
      by_cases up : (S.ifnet ifp).up
      · have upHere : ∀ Q, ((S.setPool Q).ifnet ifp).up = true := fun _ => up
        have upThere : ∀ Q, (((S.framed la log).setPool Q).ifnet ifp).up = true := fun _ => up
        have sameFrame : ∀ Q, (S.framed la log).setPool Q = (S.setPool Q).framed la log := fun _ => rfl
        rw [if_neg (by simp [upThere]), if_neg (by simp [upHere]), sameFrame, etherSend_frame]
        generalize etherSend A env _ ifp _ _ _ = sent
        cases sent <;> rfl
      · have downHere : ∀ Q, ¬ ((S.setPool Q).ifnet ifp).up = true := fun _ => up
        have downThere : ∀ Q, ¬ (((S.framed la log).setPool Q).ifnet ifp).up = true := fun _ => up
        rw [if_pos (downThere _), if_pos (downHere _)]
        rfl

theorem arprequest_keeps {sip tip : UInt32} {macaddr : Mac}
    (call : arprequest A env S ifp sip tip macaddr = some S') :
    S'.la = S.la ∧ S'.log = S.log := by
  have same := arprequest_frame A env S ifp sip tip macaddr S.la S.log
  rw [show S.framed S.la S.log = S from rfl, call, Option.map_some, Option.some.injEq] at same
  rw [same]
  exact ⟨rfl, rfl⟩

theorem mem_places_hold {la : Nat} (member : la ∈ S.las) {e : Mbuf} (held : e ∈ (S.la la).hold) :
    e ∈ places S := by
  unfold places gather
  apply List.mem_append_right
  apply List.mem_append_left
  exact List.mem_flatMap.mpr ⟨la, member, held⟩

theorem arplookup_member (sound : Sound S) {addr : UInt32} {report : Bool} {la : Nat}
    (found : arplookup env S addr report = some la) : la ∈ S.las := by
  unfold arplookup at found
  split at found
  · cases found
  · rename_i r _
    dsimp only at found
    split at found
    · cases found
    · exact sound.entries r la found

theorem arpEntry_member (sound : Sound S) {dst : UInt32} {rt : Option Nat} {la r : Nat}
    (found : arpEntry env S dst rt = some (la, r)) : la ∈ S.las := by
  have looked : arpLooked env S dst = some (la, r) → la ∈ S.las := by
    unfold arpLooked
    intro found
    split at found
    · cases found
    · rename_i isFound
      split at found
      · cases found
      · simp only [Option.some.injEq, Prod.mk.injEq] at found
        exact found.1 ▸ arplookup_member sound isFound
  unfold arpEntry at found
  split at found
  · exact looked found
  · rename_i r'
    split at found
    · split at found
      · cases found
      · rename_i l link
        simp only [Option.some.injEq, Prod.mk.injEq] at found
        exact found.1 ▸ sound.entries r' l link
    · exact looked found

def Resolvable (env : Env) (S : Stack) (dst : UInt32) (first : Mbuf) (rt : Option Nat) : Prop :=
  first.flags.bcast = true ∨ first.flags.mcast = true ∨
    ∃ la r, arpEntry env S dst rt = some (la, r) ∧ (S.rtentry r).resolved = true

def ArpLog.give (log : ArpLog) (m : Chain) : ArpLog := { log with given := log.given ++ [m] }
def ArpLog.resolve (log : ArpLog) (m : Chain) : ArpLog := { log.give m with resolved := log.resolved ++ [m] }

def Stack.displace (S : Stack) (la : Nat) (m : Chain) (P : Pool) : Stack :=
  { S with
    pool := P
    la := Function.update S.la la { S.la la with hold := m }
    log := { S.log.give m with
      displaced := S.log.displaced ++ if (S.la la).hold = [] then [] else [(S.la la).hold] } }

theorem arpresolve_holds {dst : UInt32} {rt : Option Nat} {la r : Nat} {P : Pool}
    (unicast : ¬ first.flags.bcast ∧ ¬ first.flags.mcast) (found : arpEntry env S dst rt = some (la, r))
    (unresolved : ¬ (S.rtentry r).resolved) (arp : ¬ (S.ifnet ifp).noarp)
    (freed : mbufFreem A S.pool (S.la la).hold = some P) :
    arpresolve A env S ifp dst (first :: rest) rt =
      if (S.rtentry r).expire ≠ 0 then
        match arprequest A env ((S.displace la (first :: rest) P).setRt r
          (fun rt => { rt with reject := false }))
          ifp (S.rtentry r).ifa dst (S.ifnet ifp).ethAddr with
        | none => none
        | some S => some (none, S)
      else some (none, S.displace la (first :: rest) P) := by
  have found' : arpEntry env
    (S.setLog (fun log => { log with given := log.given ++ [first :: rest] })) dst rt =
      some (la, r) := found
  simp only [arpresolve]
  rw [if_neg unicast.1, if_neg unicast.2, found']
  simp only
  refine (if_neg unresolved).trans ((if_neg arp).trans ?_)
  have freed' : mbufFreem A (S.setLog (fun log => { log with given := log.given ++ [first :: rest] })).pool
      ((S.setLog (fun log => { log with given := log.given ++ [first :: rest] })).la la).hold =
        some P := freed
  rw [freed']
  have address :
    (((S.displace la (first :: rest) P).setRt r (fun rt => { rt with reject := false })).rtentry r).ifa =
      (S.rtentry r).ifa := by simp [Stack.setRt, Stack.displace]
  rw [← address]
  rfl

theorem arpresolve_refuses {dst : UInt32} {rt : Option Nat} {P : Pool}
    (unicast : ¬ first.flags.bcast ∧ ¬ first.flags.mcast)
    (reason : arpEntry env S dst rt = none ∨
      ∃ la r, arpEntry env S dst rt = some (la, r) ∧ ¬ (S.rtentry r).resolved ∧ (S.ifnet ifp).noarp)
    (freed : mbufFreem A S.pool (first :: rest) = some P) :
    arpresolve A env S ifp dst (first :: rest) rt = some (none, { S with
      pool := P
      log := { S.log.give (first :: rest) with refused := S.log.refused ++ [first :: rest] } }) := by
  have pool : (S.setLog (fun log => { log with given := log.given ++ [first :: rest] })).pool = S.pool := rfl
  simp only [arpresolve]
  rw [if_neg unicast.1, if_neg unicast.2, pool, freed]
  rcases reason with none | ⟨la, r, found, unresolved, noarp⟩
  · rw [show arpEntry env (S.setLog (fun log => { log with given := log.given ++ [first :: rest] }))
      dst rt = _
      from none]
    rfl
  · rw [show arpEntry env (S.setLog (fun log => { log with given := log.given ++ [first :: rest] }))
      dst rt = _
      from found]
    exact (if_neg unresolved).trans (if_pos noarp)

theorem arpresolve_resolves {dst : UInt32} {rt : Option Nat} (resolvable : Resolvable env S dst first rt) :
    ∃ mac, arpresolve A env S ifp dst (first :: rest) rt =
        some (some mac, { S with log := S.log.resolve (first :: rest) }) ∧
      (¬ first.flags.bcast → ¬ first.flags.mcast →
        ∃ la r, arpEntry env S dst rt = some (la, r) ∧ mac = (S.rtentry r).sdl.mac) := by
  simp only [arpresolve]
  by_cases bcast : first.flags.bcast
  · rw [if_pos bcast]
    exact ⟨_, rfl, fun no => absurd bcast no⟩
  by_cases mcast : first.flags.mcast
  · rw [if_neg bcast, if_pos mcast]
    exact ⟨_, rfl, fun _ no => absurd mcast no⟩
  rw [if_neg bcast, if_neg mcast]
  rcases resolvable with yes | yes | ⟨la, r, found, resolved⟩
  · exact absurd yes bcast
  · exact absurd yes mcast
  · rw [show arpEntry env (S.setLog (fun log => { log with given := log.given ++ [first :: rest] }))
      dst rt = _
      from found]
    exact ⟨_, if_pos resolved, fun _ _ => ⟨la, r, found, rfl⟩⟩

theorem arpresolve_displaces {dst : UInt32} {rt : Option Nat} {la r : Nat} (sound : Sound S)
    (member : ifp ∈ S.ifps)
    (wf : Wf A S.pool (first :: rest ++ (places S ++ others)))
    (watched : ∀ a ∈ watch, a ∈ addrs (first :: rest))
    (unicast : ¬ first.flags.bcast ∧ ¬ first.flags.mcast) (found : arpEntry env S dst rt = some (la, r))
    (unresolved : ¬ (S.rtentry r).resolved) (arp : ¬ (S.ifnet ifp).noarp) :
    ∃ S' P, arpresolve A env S ifp dst (first :: rest) rt = some (none, S') ∧
      mbufFreem A S.pool (S.la la).hold = some P ∧ Steady S (S.displace la (first :: rest) P) ∧
      Moved A watch S.pool P (first :: rest ++ (places S ++ others))
        (places (S.displace la (first :: rest) P) ++ others) ∧
      Consumed A watch (S.displace la (first :: rest) P) [] others S' ∧
      S'.la = (S.displace la (first :: rest) P).la ∧ S'.log = (S.displace la (first :: rest) P).log := by
  have listed := arpEntry_member sound found
  let T := S.setLa la (fun l => { l with hold := first :: rest })
  have swapped : (places T ++ (S.la la).hold).Perm (places S ++ (first :: rest)) :=
    places_hold sound listed (first :: rest)
  have order : (first :: rest ++ (places S ++ others)).Perm ((S.la la).hold ++ (places T ++ others)) := by
    apply List.perm_iff_count.mpr
    intro e
    have count := swapped.count_eq e
    simp only [List.count_append] at *
    omega
  obtain ⟨P, freed, moved, _⟩ := (wf.perm order).freem_moved watch
  have gone : Moved A watch S.pool P (first :: rest ++ (places S ++ others)) (places T ++ others) :=
    moved.perm order.symm (List.Perm.refl _)
  have call := @arpresolve_holds A env S ifp first rest dst rt la r P unicast found unresolved arp freed
  have steady : Steady S (S.displace la (first :: rest) P) :=
    { Steady.setLa (f := fun l => { l with hold := first :: rest }) S la (fun _ => rfl) with }
  by_cases expire : (S.rtentry r).expire ≠ 0
  · rw [if_pos expire] at call
    let U := (S.displace la (first :: rest) P).setRt r (fun rt => { rt with reject := false })
    have steadyU : Steady (S.displace la (first :: rest) P) U := Steady.setRt _ r (fun _ => rfl)
    have watchedU : ∀ a ∈ watch, a ∈ addrs (places U ++ others) := by
      intro a watching
      obtain ⟨e, inM, rfl⟩ := List.mem_map.mp (watched a watching)
      rw [addrs_append]
      apply List.mem_append_left
      apply List.mem_map_of_mem
      apply @mem_places_hold U la (show la ∈ U.las from listed)
      show e ∈ (Function.update S.la la { S.la la with hold := first :: rest } la).hold
      rw [Function.update_self]
      exact inM
    obtain ⟨S', requested, consumed⟩ := @arprequest_returns A env U ifp watch others
      (sound.steady (steady.trans steadyU)) member gone.wf watchedU (S.rtentry r).ifa dst
        (S.ifnet ifp).ethAddr
    obtain ⟨lost, sent, unwatched⟩ := consumed.moved
    obtain ⟨sameLa, sameLog⟩ := arprequest_keeps requested
    refine ⟨S', P, ?_, freed, steady, gone, ⟨steadyU.trans consumed.steady, lost, sent, unwatched⟩,
      sameLa, sameLog⟩
    rw [call]
    show (match arprequest A env U ifp _ dst _ with
      | none => none
      | some S => some (none, S)) = _
    rw [requested]
  · rw [if_neg expire] at call
    exact ⟨_, P, call, freed, steady, gone, ⟨Steady.refl _, [], Moved.refl watch gone.wf, nofun⟩, rfl, rfl⟩

theorem arpresolve_answers {dst : UInt32} {rt : Option Nat} (sound : Sound S) (member : ifp ∈ S.ifps)
    (wf : Wf A S.pool (first :: rest ++ (places S ++ others)))
    (watched : ∀ a ∈ watch, a ∈ addrs (first :: rest)) :
    (Resolvable env S dst first rt ∧ ∃ mac, arpresolve A env S ifp dst (first :: rest) rt =
      some (some mac, { S with log := S.log.resolve (first :: rest) })) ∨
    (¬ Resolvable env S dst first rt ∧ ∃ S', arpresolve A env S ifp dst (first :: rest) rt = some (none, S') ∧
      Consumed A watch S (first :: rest) others S') := by
  by_cases resolvable : Resolvable env S dst first rt
  · obtain ⟨mac, call, _⟩ := @arpresolve_resolves A env S ifp first rest dst rt resolvable
    exact .inl ⟨resolvable, mac, call⟩
  right
  refine ⟨resolvable, ?_⟩
  have unicast : ¬ first.flags.bcast ∧ ¬ first.flags.mcast :=
    ⟨fun yes => resolvable (.inl yes), fun yes => resolvable (.inr (.inl yes))⟩
  have refused : (arpEntry env S dst rt = none ∨
      ∃ la r, arpEntry env S dst rt = some (la, r) ∧ ¬ (S.rtentry r).resolved ∧ (S.ifnet ifp).noarp) →
      ∃ S', arpresolve A env S ifp dst (first :: rest) rt = some (none, S') ∧
        Consumed A watch S (first :: rest) others S' := by
    intro reason
    obtain ⟨P, freed, moved, _⟩ := wf.freem_moved watch
    refine ⟨_, arpresolve_refuses unicast reason freed, ?_, [], moved, nofun⟩
    exact ⟨rfl, rfl, rfl, fun _ => rfl, fun _ => rfl, fun _ => rfl⟩
  cases found : arpEntry env S dst rt with
  | none => exact refused (.inl found)
  | some entry =>
    obtain ⟨la, r⟩ := entry
    have unresolved : ¬ (S.rtentry r).resolved := fun yes => resolvable (.inr (.inr ⟨la, r, found, yes⟩))
    by_cases noarp : (S.ifnet ifp).noarp
    · exact refused (.inr ⟨la, r, found, unresolved, noarp⟩)
    obtain ⟨S', P, call, _, steady, gone, consumed, _, _⟩ :=
      @arpresolve_displaces A env S ifp watch others first rest dst
      rt la r sound member wf watched unicast found unresolved noarp
    obtain ⟨lost, sent, unwatched⟩ := consumed.moved
    exact ⟨S', call, steady.trans consumed.steady, lost, gone.trans sent, unwatched⟩

def Rerouted (S S' : Stack) : Prop :=
  ∃ f, S' = { S with rtentry := f } ∧ ∀ r, (f r).fixed = (S.rtentry r).fixed

theorem Rerouted.refl (S : Stack) : Rerouted S S := ⟨S.rtentry, rfl, fun _ => rfl⟩

theorem Rerouted.steady (rerouted : Rerouted S S') : Steady S S' := by
  obtain ⟨f, rfl, kept⟩ := rerouted
  exact ⟨rfl, rfl, rfl, fun _ => rfl, kept, fun _ => rfl⟩

theorem nextRoute_rerouted (env : Env) (S : Stack) (dst : Sockaddr) (rt0 : Nat) :
    Rerouted S (nextRoute env S dst rt0).2 := by
  have gateway : Rerouted S (gatewayRoute env S dst rt0).2 := by
    have kept := Steady.setRt S rt0 (f := fun rt => { rt with gwroute := dst.route env }) (fun _ => rfl)
    exact ⟨_, rfl, kept.rtentry⟩
  unfold nextRoute
  split
  · split
    · exact gateway
    · split
      · exact Rerouted.refl S
      · exact gateway
  · exact Rerouted.refl S

theorem etherRoute_rerouted (env : Env) (S : Stack) (dst : Sockaddr) (rt0 : Option Nat) :
    Rerouted S (etherRoute env S dst rt0).2 := by
  unfold etherRoute
  split
  · exact Rerouted.refl S
  · split
    · exact Rerouted.refl S
    · rename_i rt0 _
      have next := nextRoute_rerouted env S dst rt0
      split
      · rename_i chosen
        rw [chosen] at next
        exact next
      · rename_i chosen
        rw [chosen] at next
        split <;> exact next

def copiedPool (A : Arena) (S : Stack) (ifp : Nat) (first : Mbuf) (rest : Chain) : Pool :=
  if first.flags.bcast ∧ (S.ifnet ifp).simplex then
    match mbufCopy A S.pool (first :: rest) 0 mCopyall with
    | none => S.pool
    | some (_, P) => P
  else S.pool

theorem looutput_returns (flagged : first.flags.pkthdr = true) (sa : Sockaddr) :
    (∃ code, code ≠ 0 ∧ looutput S ifp (first :: rest) sa = some (code, S)) ∨
    looutput S ifp (first :: rest) sa = some (0, { S with ipintrq := S.ipintrq ++
      [{ first with pkthdr := { first.pkthdr with mpRecvif := ifp } } :: rest] }) := by
  unfold looutput
  split
  · exact .inl ⟨enetdown, by decide, rfl⟩
  · dsimp only
    rw [if_neg (by simp [flagged])]
    split
    · split
      · exact .inl ⟨enobufs, by decide, rfl⟩
      · exact .inr rfl
    · exact .inl ⟨eafnosupport, by decide, rfl⟩

theorem places_input (S : Stack) (ifp : Nat) (first : Mbuf) (rest : Chain) :
    (places { S with ipintrq := S.ipintrq ++
      [{ first with pkthdr := { first.pkthdr with mpRecvif := ifp } } :: rest] }).Perm
      ({ first with pkthdr := { first.pkthdr with mpRecvif := ifp } } :: rest ++ places S) := by
  apply List.perm_iff_count.mpr
  intro e
  simp only [places, List.count_append, List.flatten_append, List.flatten_cons, List.flatten_nil,
    List.append_nil]
  omega

theorem input_moved {P : Pool} {live : List Mbuf} (wf : Wf A P (first :: live)) (watch : List Nat)
    (ifp : Nat) :
    Moved A watch P P (first :: live)
    ({ first with pkthdr := { first.pkthdr with mpRecvif := ifp } } :: live) :=
  Moved.same watch (wf.adjust rfl rfl rfl (fun _ => rfl)) rfl rfl (List.Perm.refl _)

theorem loopCopy_returns (flagged : first.flags.pkthdr = true)
    (wf : Wf A S.pool (first :: rest ++ (places S ++ others))) (fits : ∀ e ∈ first :: rest, e.Fit)
    (watched : ∀ a ∈ watch, a ∈ addrs (first :: rest)) (dst : Sockaddr) :
    ∃ S' lost, loopCopy A S ifp (first :: rest) dst = some S' ∧ Steady S S' ∧ S'.ifnet = S.ifnet ∧
      S'.pool = copiedPool A S ifp first rest ∧
      Moved A watch S.pool S'.pool (first :: rest ++ (places S ++ others))
        (first :: rest ++ (places S' ++ (lost ++ others))) ∧ ∀ e ∈ lost, e.addr ∉ watch := by
  unfold loopCopy copiedPool
  by_cases wanted : first.flags.bcast ∧ (S.ifnet ifp).simplex
  · have members : ∀ e ∈ first :: rest, e ∈ first :: rest ++ (places S ++ others) :=
      fun e member => List.mem_append_left _ member
    obtain ⟨new, P, copied, moved, _⟩ := wf.copy members fits 0 mCopyall
    simp only [wanted, and_self, if_true, copied]
    have avoided : Moved A watch S.pool P (first :: rest ++ (places S ++ others))
        (new ++ (first :: rest ++ (places S ++ others))) := by
      obtain ⟨taken, freed, took, gone, balance, fresh⟩ := moved.ledger
      refine ⟨moved.wf, taken, freed, took, gone, balance, ?_⟩
      intro a member watching
      apply fresh a member
      rw [addrs_append]
      exact List.mem_append_left _ (watched a watching)
    have unwatched : ∀ e ∈ new, e.addr ∉ watch := by
      intro e member watching
      have nodup := moved.wf.nodup
      rw [addrs_append] at nodup
      apply (List.nodup_append.mp nodup).2.2 e.addr (List.mem_map_of_mem member) e.addr _ rfl
      rw [addrs_append]
      exact List.mem_append_left _ (watched _ watching)
    cases new with
    | nil =>
      exact ⟨S.setPool P, [], rfl, ⟨rfl, rfl, rfl, fun _ => rfl, fun _ => rfl, fun _ => rfl⟩, rfl,
        rfl, avoided,
        nofun⟩
    | cons lo more =>
      obtain ⟨n, added, same, isPacket, _⟩ := copy_first flagged copied (by simp)
      simp only [List.cons.injEq] at same
      rw [← same.1] at isPacket
      rcases @looutput_returns (S.setPool P) S.lo0 lo more isPacket dst with
        ⟨code, _, call⟩ | call
      · simp only [call]
        refine ⟨_, lo :: more, rfl, ⟨rfl, rfl, rfl, fun _ => rfl, fun _ => rfl, fun _ => rfl⟩, rfl, rfl, ?_,
          unwatched⟩
        apply avoided.perm (List.Perm.refl _)
        apply List.perm_iff_count.mpr
        intro e
        show _ = List.count e (first :: rest ++ (places S ++ (lo :: more ++ others)))
        simp only [List.count_append]
        omega
      · simp only [call]
        refine ⟨_, [], rfl, ⟨rfl, rfl, rfl, fun _ => rfl, fun _ => rfl, fun _ => rfl⟩, rfl, rfl, ?_, nofun⟩
        apply (avoided.trans (input_moved avoided.wf watch S.lo0)).perm (List.Perm.refl _)
        apply List.perm_iff_count.mpr
        intro e
        have queued : List.count e (places _) = List.count e (_ ++ places S) :=
          (places_input (S.setPool P) S.lo0 lo more).count_eq e
        rw [List.count_append] at queued
        show List.count e (_ :: more ++ (first :: rest ++ (places S ++ others))) =
          List.count e (first :: rest ++ (places _ ++ ([] ++ others)))
        rw [List.count_append, List.count_append, List.count_append, List.count_append,
          List.count_append, queued,
          List.nil_append]
        omega
  · simp only [wanted, if_false]
    exact ⟨S, [], rfl, Steady.refl S, rfl, rfl, Moved.refl watch wf, nofun⟩

theorem etherRoute_error (env : Env) (S : Stack) (dst : Sockaddr) (rt0 : Option Nat) {code : Nat} {S' : Stack}
    (call : etherRoute env S dst rt0 = (.error code, S')) : code ≠ 0 := by
  unfold etherRoute at call
  split at call
  · cases call
  · split at call
    · cases call
      decide
    · split at call
      · cases call
        decide
      · split at call
        · simp only [Prod.mk.injEq, Except.error.injEq] at call
          rw [← call.1]
          split <;> decide
        · cases call

/-- `ether_output` returns 0 for the packet: there is a usable route, and the packet is taken over
    by `arpresolve` or there is room for it. -/
def Sendable (A : Arena) (env : Env) (S : Stack) (ifp : Nat) (first : Mbuf) (rest : Chain) (dst : Sockaddr)
    (rt0 : Option Nat) : Prop :=
  match etherRoute env S dst rt0 with
  | (.error _, _) => False
  | (.ok rt, T) =>
    match dst with
    | .inet addr => Resolvable env T addr first rt →
        Queueable A (copiedPool A S ifp first rest) (S.ifnet ifp) first
    | .unspec _ _ => Queueable A S.pool (S.ifnet ifp) first
    | .other _ => False

theorem Consumed.after {T : Stack} (steady : Steady S T) (lost : List Mbuf)
    (unwatched : ∀ e ∈ lost, e.addr ∉ watch)
    (moved : Moved A watch S.pool T.pool (m ++ (places S ++ others)) (m ++ (places T ++ (lost ++ others))))
    (consumed : Consumed A watch T m (lost ++ others) S') : Consumed A watch S m others S' := by
  obtain ⟨more, gone, unwatchedMore⟩ := consumed.moved
  refine ⟨steady.trans consumed.steady, more ++ lost, ?_, ?_⟩
  · apply (moved.trans gone).perm (List.Perm.refl _)
    apply List.perm_iff_count.mpr
    intro e
    simp only [List.count_append]
    omega
  · intro e member
    rcases List.mem_append.mp member with late | early
    · exact unwatchedMore e late
    · exact unwatched e early

theorem etherOutput_consumes (sound : Sound S) (member : ifp ∈ S.ifps) (up : (S.ifnet ifp).up)
    (flagged : first.flags.pkthdr = true) (wf : Wf A S.pool (first :: rest ++ (places S ++ others)))
    (fits : ∀ e ∈ first :: rest, e.Fit) (watched : ∀ a ∈ watch, a ∈ addrs (first :: rest)) (dst : Sockaddr)
    (rt0 : Option Nat) :
    ∃ code S', etherOutput A env S ifp (first :: rest) dst rt0 = some (code, S') ∧
      Consumed A watch S (first :: rest) others S' ∧
        (code = 0 ↔ Sendable A env S ifp first rest dst rt0) := by
  have rerouted := etherRoute_rerouted env S dst rt0
  unfold etherOutput Sendable
  rw [if_neg (by simp [up])]
  have inUse : ∀ live, ∀ a ∈ watch, a ∈ addrs (first :: rest ++ live) := by
    intro live a watching
    rw [addrs_append]
    exact List.mem_append_left _ (watched a watching)
  generalize route : etherRoute env S dst rt0 = outcome
  obtain ⟨choice, T⟩ := outcome
  rw [route] at rerouted
  change Rerouted S T at rerouted
  have steady := rerouted.steady
  have soundT := sound.steady steady
  obtain ⟨f, shape, _⟩ := rerouted
  have pool : T.pool = S.pool := by rw [shape]
  have same : places T = places S := by rw [shape]; rfl
  have memberT : ifp ∈ T.ifps := steady.ifps ▸ member
  have ifnet : T.ifnet = S.ifnet := by rw [shape]
  have wfT : Wf A T.pool (first :: rest ++ (places T ++ others)) := by rw [pool, same]; exact wf
  have begun : Moved A watch S.pool T.pool (first :: rest ++ (places S ++ others))
      (first :: rest ++ (places T ++ ([] ++ others))) := by
    rw [pool, same]
    exact Moved.refl watch wf
  cases choice with
  | error code =>
    obtain ⟨S', freed, consumed⟩ := Consumed.freed code wfT watch
    refine ⟨code, S', freed, Consumed.after steady [] nofun begun consumed, ?_⟩
    simp only [iff_false]
    exact etherRoute_error env S dst rt0 route
  | ok rt =>
    cases dst with
    | unspec macaddr ethertype =>
      obtain ⟨code, S', sent, consumed, done⟩ :=
        @etherSend_consumes A env T ifp watch others first rest soundT
        memberT wfT fits (inUse _) macaddr ethertype
      refine ⟨code, S', sent, Consumed.after steady [] nofun begun consumed, ?_⟩
      rw [done, pool, ifnet]
    | other family =>
      obtain ⟨S', freed, consumed⟩ := Consumed.freed eafnosupport wfT watch
      refine ⟨_, S', freed, Consumed.after steady [] nofun begun consumed, ?_⟩
      simp only [iff_false]
      decide
    | inet addr =>
      rcases @arpresolve_answers A env T ifp watch others first rest addr rt soundT memberT wfT watched with
        ⟨resolvable, mac, resolved⟩ | ⟨unresolved, S', held, consumed⟩
      · let U : Stack := { T with log := T.log.resolve (first :: rest) }
        have soundU : Sound U := ⟨soundT.ifps, soundT.las, soundT.entries⟩
        obtain ⟨V, lost, looped, steadyV, ifnetV, poolV, movedV, unwatched⟩ := @loopCopy_returns A U ifp watch
          others first rest flagged wfT fits watched (.inet addr)
        obtain ⟨code, S', sent, consumed, done⟩ :=
          @etherSend_consumes A env V ifp watch (lost ++ others) first
          rest (soundU.steady steadyV) (steadyV.ifps ▸ memberT) movedV.wf fits (inUse _) mac
            (htons ethertypeIp)
        refine ⟨code, S', ?_, ?_, ?_⟩
        · simp only [resolved]
          show (match loopCopy A U ifp (first :: rest) (.inet addr) with
            | none => none
            | some S => etherSend A env S ifp (first :: rest) mac (htons ethertypeIp)) = _
          rw [looped]
          exact sent
        · have steadyU : Steady T U := ⟨rfl, rfl, rfl, fun _ => rfl, fun _ => rfl, fun _ => rfl⟩
          have reached := Consumed.after (steadyU.trans steadyV) lost unwatched movedV consumed
          exact Consumed.after steady [] nofun begun reached
        · simp only [resolvable, true_implies]
          rw [done, poolV, ifnetV]
          have copied : copiedPool A U ifp first rest = copiedPool A S ifp first rest := by
            unfold copiedPool
            rw [show U.ifnet = S.ifnet from ifnet, show U.pool = S.pool from pool]
          rw [copied, show U.ifnet = S.ifnet from ifnet]
      · refine ⟨0, S', ?_, Consumed.after steady [] nofun begun consumed, ?_⟩
        · simp only [held]
        · simp only [unresolved, false_implies]

end Embryo.Net
