import Embryo.Inet.Cksum
import Embryo.Inet.Pcb
import Embryo.Net.Owned

namespace Embryo.Inet

open Embryo.Machine Embryo.Uipc Embryo.Net
open Embryo.Kmem (Arena)

def enetunreach : Nat := 51
def sizeofIp : Nat := 20
def ipversion : Nat := 4

def ipHlen (mem : Memory) (ip : Nat) : Nat := (mem ip).toNat % 16
def ipVer (mem : Memory) (ip : Nat) : Nat := (mem ip).toNat / 16
def ipLen (mem : Memory) (ip : Nat) : UInt16 := get16 mem (ip + 2)
def ipId (mem : Memory) (ip : Nat) : UInt16 := get16 mem (ip + 4)
def ipOff (mem : Memory) (ip : Nat) : UInt16 := get16 mem (ip + 6)
def ipTtl (mem : Memory) (ip : Nat) : UInt8 := mem (ip + 8)
def ipPro (mem : Memory) (ip : Nat) : UInt8 := mem (ip + 9)
def ipSum (mem : Memory) (ip : Nat) : UInt16 := get16 mem (ip + 10)
def ipSrc (mem : Memory) (ip : Nat) : UInt32 := get32 mem (ip + 12)
def ipDst (mem : Memory) (ip : Nat) : UInt32 := get32 mem (ip + 16)

def setIpVer (mem : Memory) (ip v : Nat) : Memory := write mem ip [UInt8.ofNat (v * 16 + ipHlen mem ip)]
def setIpHlen (mem : Memory) (ip v : Nat) : Memory := write mem ip [UInt8.ofNat (ipVer mem ip * 16 + v)]
def setIpLen (mem : Memory) (ip : Nat) (v : UInt16) : Memory := write mem (ip + 2) (bytes16 v)
def setIpId (mem : Memory) (ip : Nat) (v : UInt16) : Memory := write mem (ip + 4) (bytes16 v)
def setIpOff (mem : Memory) (ip : Nat) (v : UInt16) : Memory := write mem (ip + 6) (bytes16 v)
def setIpTtl (mem : Memory) (ip : Nat) (v : UInt8) : Memory := write mem (ip + 8) [v]
def setIpSum (mem : Memory) (ip : Nat) (v : UInt16) : Memory := write mem (ip + 10) (bytes16 v)
def setIpSrc (mem : Memory) (ip : Nat) (v : UInt32) : Memory := write mem (ip + 12) (bytes32 v)
def setIpDst (mem : Memory) (ip : Nat) (v : UInt32) : Memory := write mem (ip + 16) (bytes32 v)

structure IpFlags where
  forwarding : Bool
  rawoutput : Bool
  routetoif : Bool
deriving DecidableEq, Repr

structure Route where
  rt : Option Nat
  dst : UInt32
deriving DecidableEq, Repr

def ipStart (mem : Memory) (ip : Nat) (flags : IpFlags) : Memory :=
  if ¬ (flags.forwarding ∨ flags.rawoutput) then setIpId (setIpVer mem ip ipversion) ip (htons 0) else mem

def cachedRoute (S : Stack) (ro : Option Route) (dst : UInt32) : Route :=
  match ro with
  | none => ⟨none, dst⟩
  | some ro =>
    match ro.rt with
    | none => ⟨none, dst⟩
    | some rt => if ¬ (S.rtentry rt).up ∨ ro.dst ≠ dst then ⟨none, dst⟩ else ro

def outgoing (env : Env) (S : Stack) (ro : Option Route) (flags : IpFlags) (dst : UInt32) :
    Option (Nat × UInt32) × Route :=
  let ro := cachedRoute S ro dst
  if flags.routetoif then
    if (env.ifaIfwithdstaddr ro.dst).isNone ∨ (env.ifaIfwithnet ro.dst).isNone then (none, ro)
    else
      match env.ifaIfwithaddr ro.dst with
      | none => (none, ro)
      | some ia => (some (ia.ifp, ia.addr), ro)
  else
    let ro := { ro with rt := if ro.rt.isNone then env.rtAlloc ro.dst true else ro.rt }
    match ro.rt with
    | none => (none, ro)
    | some rt => (some ((S.rtentry rt).ifp, (S.rtentry rt).ifa), ro)

def ipAddressed (mem : Memory) (ip : Nat) (flags : IpFlags) (ia : UInt32) : Memory :=
  let mem := if flags.routetoif then setIpTtl mem ip 1 else mem
  if ipSrc mem ip = inaddrAny then setIpSrc mem ip ia else mem

def ipFinished (mem : Memory) (ip : Nat) (m : Chain) (hlen : Nat) : Memory :=
  let mem := setIpLen mem ip (htons (ipLen mem ip))
  let mem := setIpOff mem ip (htons (ipOff mem ip))
  let mem := setIpSum mem ip 0
  setIpSum mem ip (UInt16.ofNat (inCksum mem m hlen))

def ipOutput (A : Arena) (env : Env) (S : Stack) (m : Chain) (ro : Option Route) (flags : IpFlags) :
    Option (Nat × Stack × Route) :=
  match m with
  | [] => none
  | first :: rest =>
    if ¬ first.flags.pkthdr then none
    else
      let ip := first.data
      let mem := ipStart S.pool.mem ip flags
      let hlen := ipHlen mem ip * 4
      match outgoing env S ro flags (ipDst mem ip) with
      | (none, ro) =>
        match freeing A (setMem S mem) (first :: rest) enetunreach with
        | none => none
        | some (code, S) => some (code, S, ro)
      | (some (ifp, ia), ro) =>
        let mem := ipAddressed mem ip flags ia
        if (ipLen mem ip).toNat ≤ (S.ifnet ifp).mtu then
          let mem := ipFinished mem ip (first :: rest) hlen
          match ifOutput A env (setMem S mem) ifp (first :: rest) (.inet ro.dst) ro.rt with
          | none => none
          | some (code, S) =>
            if code = 0 then some (0, S, ro)
            else
              match freeing A S (first :: rest) code with
              | none => none
              | some (code, S) => some (code, S, ro)
        else some (0, setMem S mem, ro)

def FreedOrPlaced (S : Stack) (m : Chain) (S' : Stack) : Prop :=
  ∃ freed, S'.pool.freed = freed ++ S.pool.freed ∧
    ∀ e ∈ m, freed.count e.addr + (addrs (places S')).count e.addr = 1

variable {A : Arena} {env : Env} {S S' : Stack} {m : Chain} {first : Mbuf} {rest : Chain} {others : List Mbuf}

theorem Wf.count_packet {P : Pool} {live : List Mbuf} (wf : Wf A P (m ++ live)) {e : Mbuf} (member : e ∈ m) :
    (addrs m).count e.addr = 1 ∧ (addrs live).count e.addr = 0 := by
  have nodup := wf.nodup
  rw [addrs_append] at nodup
  have here : e.addr ∈ addrs m := List.mem_map_of_mem member
  constructor
  · exact List.count_eq_one_of_mem (List.nodup_append.mp nodup).1 here
  · apply List.count_eq_zero_of_not_mem
    intro there
    exact (List.nodup_append.mp nodup).2.2 e.addr here e.addr there rfl

theorem Consumed.count (wf : Wf A S.pool (m ++ (places S ++ others)))
    (consumed : Consumed A (addrs m) S m others S') :
    ∃ freed, S'.pool.freed = freed ++ S.pool.freed ∧
      ∀ e ∈ m, freed.count e.addr + (addrs (places S')).count e.addr = 1 := by
  obtain ⟨lost, moved, unwatched⟩ := consumed.moved
  obtain ⟨taken, freed, _, gone, balance, fresh⟩ := moved.ledger
  refine ⟨freed, gone, ?_⟩
  intro e member
  have watched : e.addr ∈ addrs m := List.mem_map_of_mem member
  obtain ⟨own, elsewhere⟩ := Wf.count_packet wf member
  have notTaken : taken.count e.addr = 0 :=
    List.count_eq_zero_of_not_mem (fun inTaken => fresh e.addr inTaken watched)
  have notLost : (addrs lost).count e.addr = 0 := by
    apply List.count_eq_zero_of_not_mem
    intro inLost
    obtain ⟨f, isLost, same⟩ := List.mem_map.mp inLost
    exact unwatched f isLost (same ▸ watched)
  have count := balance.count_eq e.addr
  simp only [addrs_append, List.count_append] at count elsewhere
  omega

theorem not_freedOrPlaced_of_same (wf : Wf A S.pool (first :: rest ++ (places S ++ others)))
    (freed : S'.pool.freed = S.pool.freed) (same : places S' = places S) :
    ¬ FreedOrPlaced S (first :: rest) S' := by
  rintro ⟨gone, ledger, count⟩
  have none : gone = [] := by
    rw [freed] at ledger
    exact (List.append_left_eq_self.mp ledger.symm)
  have here := count first List.mem_cons_self
  obtain ⟨_, elsewhere⟩ := Wf.count_packet wf (m := first :: rest) (e := first) List.mem_cons_self
  rw [none, same] at here
  simp only [addrs_append, List.count_append] at elsewhere
  simp only [List.count_nil, Nat.zero_add] at here
  omega

theorem not_freedOrPlaced_twice {T : Stack} {P : Pool}
    (wf : Wf A S.pool (first :: rest ++ (places S ++ others)))
    (consumed : Consumed A (addrs (first :: rest)) S (first :: rest) others T)
    (again : mbufFreem A T.pool (first :: rest) = some P) :
    ¬ FreedOrPlaced S (first :: rest) (T.setPool P) := by
  rintro ⟨gone, ledger, count⟩
  obtain ⟨freed, before, once⟩ := Consumed.count wf consumed
  have twice := (mbufFreem_ledger again).2
  have here := count first List.mem_cons_self
  have there := once first List.mem_cons_self
  have same : gone = (addrs (first :: rest)).reverse ++ freed := by
    have both : gone ++ S.pool.freed = (addrs (first :: rest)).reverse ++ freed ++ S.pool.freed := by
      rw [← ledger, List.append_assoc, ← before]
      exact twice
    exact List.append_cancel_right both
  have own : 0 < (addrs (first :: rest)).reverse.count first.addr := by
    apply List.count_pos_iff.mpr
    simp [addrs]
  have placed : places (T.setPool P) = places T := rfl
  rw [same, placed, List.count_append] at here
  omega

theorem ipStart_same (mem : Memory) (ip : Nat) (flags : IpFlags) :
    SameBut ip sizeofIp mem (ipStart mem ip flags) := by
  unfold ipStart
  split
  · exact (SameBut.write mem (by omega) (by simp [sizeofIp])).trans
      (SameBut.write _ (by omega) (by simp [bytes16, sizeofIp]))
  · exact SameBut.refl ip sizeofIp mem

theorem ipAddressed_same (mem : Memory) (ip : Nat) (flags : IpFlags) (ia : UInt32) :
    SameBut ip sizeofIp mem (ipAddressed mem ip flags ia) := by
  have ttl : SameBut ip sizeofIp mem (if flags.routetoif then setIpTtl mem ip 1 else mem) := by
    split
    · exact SameBut.write mem (by omega) (by simp [sizeofIp])
    · exact SameBut.refl ip sizeofIp mem
  unfold ipAddressed
  generalize (if flags.routetoif then setIpTtl mem ip 1 else mem) = mem' at *
  by_cases unset : ipSrc mem' ip = inaddrAny
  · simp only [unset, if_true]
    exact ttl.trans (SameBut.write mem' (by omega) (by simp [bytes32, sizeofIp]))
  · simp only [unset, if_false]
    exact ttl

theorem ipFinished_same (mem : Memory) (ip : Nat) (m : Chain) (hlen : Nat) :
    SameBut ip sizeofIp mem (ipFinished mem ip m hlen) := by
  have stored : ∀ (mem : Memory) (k : Nat) (v : UInt16), k + 2 ≤ sizeofIp →
      SameBut ip sizeofIp mem (Machine.write mem (ip + k) (bytes16 v)) := by
    intro mem k v inside
    exact SameBut.write mem (by omega) (by simp only [bytes16, List.length_cons, List.length_nil]; omega)
  apply SameBut.trans (stored mem 2 _ (by decide))
  apply SameBut.trans (stored _ 6 _ (by decide))
  apply SameBut.trans (stored _ 10 _ (by decide))
  exact stored _ 10 _ (by decide)

structure Attached (env : Env) (S : Stack) : Prop where
  rtentry : ∀ r, (S.rtentry r).ifp ∈ S.ifps
  ifaddr : ∀ dst, ∀ ia ∈ env.ifaIfwithaddr dst, ia.ifp ∈ S.ifps

theorem outgoing_attached (attached : Attached env S) {ro : Option Route} {flags : IpFlags} {dst ia : UInt32}
    {ifp : Nat} {ro' : Route} (found : outgoing env S ro flags dst = (some (ifp, ia), ro')) :
    ifp ∈ S.ifps := by
  unfold outgoing at found
  dsimp only at found
  split at found
  · split at found
    · cases found
    · split at found
      · cases found
      · rename_i address isFound
        simp only [Prod.mk.injEq, Option.some.injEq] at found
        exact found.1.1 ▸ attached.ifaddr _ address isFound
  · split at found
    · cases found
    · rename_i r _
      simp only [Prod.mk.injEq, Option.some.injEq] at found
      exact found.1.1 ▸ attached.rtentry r

/-- `ip_output` sends a packet, or frees it once: where there is a route, the packet fits the
    interface, and `ether_output`, unless the interface is down, does not return an error. -/
def Outputs (A : Arena) (env : Env) (S : Stack) (first : Mbuf) (rest : Chain) (ro : Option Route)
    (flags : IpFlags) : Prop :=
  let ip := first.data
  let mem := ipStart S.pool.mem ip flags
  match outgoing env S ro flags (ipDst mem ip) with
  | (none, _) => True
  | (some (ifp, ia), ro) =>
    let hlen := ipHlen mem ip * 4
    let mem := ipAddressed mem ip flags ia
    (ipLen mem ip).toNat ≤ (S.ifnet ifp).mtu ∧
      ((S.ifnet ifp).output = .ether → (S.ifnet ifp).up →
        Sendable A env (setMem S (ipFinished mem ip (first :: rest) hlen)) ifp first rest
          (.inet ro.dst) ro.rt)

section

variable {ifp : Nat} {dst : Sockaddr} {rt : Option Nat} (sound : Sound S)
  (flagged : first.flags.pkthdr = true)
  (wf : Wf A S.pool (first :: rest ++ (places S ++ others)))

include flagged wf

omit flagged in
theorem freeing_owns (code : Nat) : ∃ S', freeing A S (first :: rest) code = some (code, S') ∧
    FreedOrPlaced S (first :: rest) S' := by
  obtain ⟨S', freed, consumed⟩ := Consumed.freed code wf (addrs (first :: rest))
  exact ⟨S', freed, Consumed.count wf consumed⟩

theorem looutput_owns : ∃ code S', looutput S ifp (first :: rest) dst = some (code, S') ∧
    ((code = 0 ∧ FreedOrPlaced S (first :: rest) S') ∨ (code ≠ 0 ∧ S' = S)) := by
  rcases @looutput_returns S ifp first rest flagged dst with ⟨code, failed, call⟩ | call
  · exact ⟨code, S, call, .inr ⟨failed, rfl⟩⟩
  · refine ⟨0, _, call, .inl ⟨rfl, ?_⟩⟩
    apply Consumed.count wf
    refine ⟨⟨rfl, rfl, rfl, fun _ => rfl, fun _ => rfl, fun _ => rfl⟩, [], ?_, nofun⟩
    apply (input_moved wf (addrs (first :: rest)) ifp).perm (List.Perm.refl _)
    have queued := (places_input S ifp first rest).append_right others
    rw [List.append_assoc] at queued
    exact queued.symm

include sound

theorem ifOutput_owns_iff (member : ifp ∈ S.ifps) (fits : ∀ e ∈ first :: rest, e.Fit) :
    (∃ code S', (match ifOutput A env S ifp (first :: rest) dst rt with
        | none => none
        | some (code, S) =>
          if code = 0 then some (0, S) else freeing A S (first :: rest) code) = some (code, S') ∧
      FreedOrPlaced S (first :: rest) S') ↔
    ((S.ifnet ifp).output = .ether → (S.ifnet ifp).up → Sendable A env S ifp first rest dst rt) := by
  obtain ⟨kept, freed, owned⟩ := freeing_owns wf enetdown
  unfold ifOutput
  cases kind : (S.ifnet ifp).output with
  | loop =>
    simp only [reduceCtorEq, false_implies, iff_true]
    obtain ⟨code, S', call, ⟨rfl, owned⟩ | ⟨failed, rfl⟩⟩ :=
      @looutput_owns A S first rest others ifp dst flagged wf
    · exact ⟨0, S', by rw [call]; rfl, owned⟩
    · obtain ⟨kept, freed, owned⟩ := freeing_owns wf code
      refine ⟨code, kept, ?_, owned⟩
      rw [call]
      exact (if_neg failed).trans freed
  | ether =>
    by_cases up : (S.ifnet ifp).up
    · obtain ⟨code, S', call, consumed, done⟩ :=
        @etherOutput_consumes A env S ifp (addrs (first :: rest)) others
        first rest sound member up flagged wf fits (fun _ h => h) dst rt
      simp only [call, true_implies, up]
      by_cases zero : code = 0
      · simp only [zero, if_true, done.mp zero, iff_true]
        exact ⟨0, S', rfl, Consumed.count wf consumed⟩
      · simp only [zero, if_false, mt done.mpr zero, iff_false, freeing]
        rintro ⟨code', final, again, owned⟩
        split at again
        · cases again
        · rename_i P twice
          simp only [Option.some.injEq, Prod.mk.injEq] at again
          rw [← again.2] at owned
          exact not_freedOrPlaced_twice wf consumed twice owned
    · have down : etherOutput A env S ifp (first :: rest) dst rt = some (enetdown, S) := by
        rw [etherOutput, if_pos up]
      constructor
      · intro _ _ yes
        exact absurd yes up
      · intro _
        refine ⟨enetdown, kept, ?_, owned⟩
        simp only [down]
        exact (if_neg (by decide)).trans freed

end

theorem setMem_sound (sound : Sound S) (mem : Memory) : Sound (setMem S mem) :=
  ⟨sound.ifps, sound.las, sound.entries⟩

/-- `ip_output` frees each mbuf of the packet once or leaves it in one place, exactly under the
    conditions of `Outputs`. -/
theorem output_owns_iff (sound : Sound S) (attached : Attached env S) (flagged : first.flags.pkthdr = true)
    (window : Windowed first sizeofIp) (fits : ∀ e ∈ first :: rest, e.Fit)
    (wf : Wf A S.pool (first :: rest ++ (places S ++ others))) (ro : Option Route) (flags : IpFlags) :
    (∃ code S' ro', ipOutput A env S (first :: rest) ro flags = some (code, S', ro') ∧
      FreedOrPlaced S (first :: rest) S') ↔ Outputs A env S first rest ro flags := by
  have started := ipStart_same S.pool.mem first.data flags
  unfold ipOutput Outputs
  simp only [flagged, not_true_eq_false, if_false]
  generalize ipStart S.pool.mem first.data flags = mem at started ⊢
  generalize found : outgoing env S ro flags (ipDst mem first.data) = choice
  obtain ⟨_ | ⟨ifp, ia⟩, ro'⟩ := choice
  · -- no route
    obtain ⟨S', freed, owned⟩ := @freeing_owns A (setMem S mem) first rest others
      (wf.write_window window started) enetunreach
    simp only [freed, iff_true]
    exact ⟨enetunreach, S', ro', rfl, owned⟩
  · have member := outgoing_attached attached found
    have addressed := started.trans (ipAddressed_same mem first.data flags ia)
    simp only
    generalize ipAddressed mem first.data flags ia = mem' at addressed
    by_cases fitting : (ipLen mem' first.data).toNat ≤ (S.ifnet ifp).mtu
    · -- the packet goes to the interface
      have finished := addressed.trans
        (ipFinished_same mem' first.data (first :: rest) (ipHlen mem first.data * 4))
      simp only [fitting, if_true, true_and]
      generalize ipFinished mem' first.data (first :: rest) (ipHlen mem first.data * 4) = mem'' at finished
      have settled := @ifOutput_owns_iff A env (setMem S mem'') first rest others ifp (.inet ro'.dst) ro'.rt
        (setMem_sound sound mem'') flagged (wf.write_window window finished) member fits
      refine Iff.trans ?_ settled
      cases sent : ifOutput A env (setMem S mem'') ifp (first :: rest) (.inet ro'.dst) ro'.rt with
      | none => simp
      | some result =>
        obtain ⟨code, T⟩ := result
        by_cases zero : code = 0
        · simp only [zero, if_true, Option.some.injEq, Prod.mk.injEq]
          constructor
          · rintro ⟨_, S', _, ⟨_, rfl, _⟩, owned⟩
            exact ⟨0, T, ⟨rfl, rfl⟩, owned⟩
          · rintro ⟨_, S', ⟨_, rfl⟩, owned⟩
            exact ⟨0, T, ro', ⟨rfl, rfl, rfl⟩, owned⟩
        · simp only [zero, if_false]
          cases freed : freeing A T (first :: rest) code with
          | none => simp
          | some result =>
            simp only [Option.some.injEq, Prod.mk.injEq]
            constructor
            · rintro ⟨_, S', _, ⟨_, rfl, _⟩, owned⟩
              exact ⟨_, result.2, rfl, owned⟩
            · rintro ⟨code', S', rfl, owned⟩
              exact ⟨code', S', ro', ⟨rfl, rfl, rfl⟩, owned⟩
    · -- too long for the interface: it is forgotten
      simp only [fitting, if_false, false_and, iff_false]
      rintro ⟨code, S', _, same, owned⟩
      simp only [Option.some.injEq, Prod.mk.injEq] at same
      rw [← same.2.1] at owned
      exact not_freedOrPlaced_of_same wf rfl rfl owned

theorem etherRoute_direct {dst : Sockaddr} {r : Nat} (up : (S.rtentry r).up)
    (direct : ¬ (S.rtentry r).gateway)
    (usable : ¬ (S.rtentry r).reject) : etherRoute env S dst (some r) = (.ok (some r), S) := by
  simp [etherRoute, nextRoute, up, direct, usable]

theorem output_forgets {ro : Option Route} {flags : IpFlags} {ifp : Nat} {ia : UInt32} {ro' : Route}
    (flagged : first.flags.pkthdr = true)
    (found : outgoing env S ro flags (ipDst (ipStart S.pool.mem first.data flags) first.data) =
      (some (ifp, ia), ro'))
    (long : ¬ (ipLen (ipAddressed (ipStart S.pool.mem first.data flags) first.data flags ia)
      first.data).toNat ≤
      (S.ifnet ifp).mtu) :
    ipOutput A env S (first :: rest) ro flags =
      some (0, setMem S (ipAddressed (ipStart S.pool.mem first.data flags) first.data flags ia), ro') := by
  simp only [ipOutput, flagged, not_true_eq_false, if_false, found, long]

abbrev ether0 : Ifnet := ⟨.ether, true, true, false, false, 1500, 7, [], #v[0x10, 1, 2, 3, 4, 5]⟩
abbrev hostRoute : Rtentry :=
  ⟨true, false, false, true, false, 0, htonl 0xc0a80109, 1, htonl 0xc0a80105,
    ⟨20, 18, 6, #v[0x10, 1, 2, 3, 4, 9]⟩, none, some 20⟩
abbrev lan (P : Pool) : Stack where
  pool := P
  ifps := [1]
  ifnet := fun _ => ether0
  lo0 := 2
  rtentry := fun _ => hostRoute
  las := [20]
  la := fun _ => ⟨some 10, [], 0⟩
  ipintrq := []
  inIfaddrlist := [⟨1, htonl 0xc0a80105⟩]
  sent := []
  log := ⟨[], [], [], [], []⟩
abbrev toHost : Env := ⟨fun _ _ => some 10, fun _ => none, fun _ => none, fun _ => none, List.length⟩

theorem lan_sound (P : Pool) : Sound (lan P) := by
  refine ⟨List.nodup_singleton 1, List.nodup_singleton 20, ?_⟩
  intro r l link
  simp only [Option.some.injEq] at link
  rw [← link]
  exact List.mem_singleton_self 20

theorem lan_attached (P : Pool) : Attached toHost (lan P) :=
  ⟨fun _ => List.mem_singleton_self 1, fun _ _ found => by cases found⟩

abbrev udpHeader (len : UInt16) : List UInt8 :=
  [0x05, 0] ++ bytes16 len ++ [0, 0, 0, 0, 64, 17, 0, 0] ++ bytes32 (htonl 0xc0a80105) ++
    bytes32 (htonl 0xc0a80109)

abbrev little : Mbuf :=
  { mbufOf pktGet with data := (mbufOf pktGet).data + 40, len := 30, pkthdr := ⟨30, 0⟩ }
abbrev littlePool : Pool := { pktGet.2 with mem := write pktGet.2.mem little.data (udpHeader 30) }
abbrev bigExt : Nat × Mbuf × Pool :=
  (mbufGetext Kmem.board pktGet.2 (mbufOf pktGet)).getD (1, mbufOf pktGet, pktGet.2)
abbrev big : Mbuf := { bigExt.2.1 with len := 1628, pkthdr := ⟨1628, 0⟩ }
abbrev bigPool : Pool := { bigExt.2.2 with mem := write bigExt.2.2.mem big.data (udpHeader 1628) }

abbrev plainOutput : IpFlags := ⟨false, false, false⟩

/-- The interface and the address that the packets leave by, and the route that is found for them. -/
abbrev lanWay : Option (Nat × UInt32) × Route := (some (1, htonl 0xc0a80105), ⟨some 10, htonl 0xc0a80109⟩)

theorem packets_answer :
    ((little.room.addr ≤ little.data ∧ little.data + 20 ≤ little.room.stop ∧
      little.data + little.len ≤ little.room.stop) ∧
      outgoing toHost (lan littlePool) none plainOutput
        (ipDst (ipStart littlePool.mem little.data plainOutput) little.data) = lanWay ∧
      (ipLen (ipAddressed (ipStart littlePool.mem little.data plainOutput) little.data plainOutput
        (htonl 0xc0a80105))
        little.data).toNat ≤ 1500 ∧
      sizeofEtherHdr ≤ leadingSpace little) ∧
    (big.room.addr ≤ big.data ∧ big.data + 20 ≤ big.room.stop) ∧
      (pktGet.2.mclfree ≠ 0 ∧ (mbufGetext Kmem.board pktGet.2 (mbufOf pktGet)).isSome = true ∧ bigExt.1 = 0) ∧
      outgoing toHost (lan bigPool) none plainOutput
        (ipDst (ipStart bigPool.mem big.data plainOutput) big.data) = lanWay ∧
      ¬ (ipLen (ipAddressed (ipStart bigPool.mem big.data plainOutput) big.data plainOutput
        (htonl 0xc0a80105))
        big.data).toNat ≤ 1500 := by
  decide +kernel

theorem little_wf : Wf Kmem.board littlePool [little] := by
  have edit := @Reachable.edit_head _ _ _ _ _ little pktGet_reachable rfl rfl rfl rfl
  obtain ⟨⟨⟨low, high, -⟩, -⟩, -⟩ := packets_answer
  exact (Wf.header edit.wf ⟨low, high⟩ (by decide) []).wf

theorem big_wf : Wf Kmem.board bigPool [big] := by
  obtain ⟨-, ⟨low, high⟩, ⟨free, ended, code⟩, -⟩ := packets_answer
  have call : mbufGetext Kmem.board pktGet.2 (mbufOf pktGet) = some (0, bigExt.2.1, bigExt.2.2) :=
    ext_eq ended code
  have ext := pktGet_reachable.getext_head rfl (.inl free) (.inl free) call
  have edit := @Reachable.edit_head _ _ _ _ _ big ext rfl rfl rfl rfl
  exact (Wf.header edit.wf ⟨low, high⟩ (by decide) []).wf

theorem little_packet_owned :
    ∃ code S' ro', ipOutput Kmem.board toHost (lan littlePool)
    [little] none plainOutput = some (code, S', ro') ∧
      FreedOrPlaced (lan littlePool) [little] S' := by
  obtain ⟨⟨⟨low, high, inside⟩, found, short, space⟩, -⟩ := packets_answer
  apply (@output_owns_iff Kmem.board toHost (lan littlePool) little [] [] (lan_sound _) (lan_attached _) rfl
    ⟨low, high⟩ (List.forall_mem_singleton.mpr ⟨low, inside⟩) little_wf none plainOutput).mpr
  simp only [Outputs, found]
  refine ⟨short, ?_⟩
  intro _ _
  unfold Sendable
  rw [etherRoute_direct rfl (by decide) (by decide)]
  intro _
  exact ⟨.inl space, by decide⟩

/-- A datagram of 1600 bytes on an interface that takes 1500. -/
theorem oversize_packet_lost :
    ¬ ∃ code S' ro', ipOutput Kmem.board toHost (lan bigPool) [big] none plainOutput = some (code, S', ro') ∧
      FreedOrPlaced (lan bigPool) [big] S' := by
  obtain ⟨-, -, -, found, long⟩ := packets_answer
  have forgotten := @output_forgets Kmem.board toHost (lan bigPool) big [] none plainOutput 1
    (htonl 0xc0a80105)
    ⟨some 10, htonl 0xc0a80109⟩ rfl found long
  rintro ⟨code, S', ro', call, owned⟩
  rw [forgotten] at call
  simp only [Option.some.injEq, Prod.mk.injEq] at call
  rw [← call.2.1] at owned
  have wf : Wf Kmem.board (lan bigPool).pool ([big] ++ (places (lan bigPool) ++ [])) := big_wf
  exact not_freedOrPlaced_of_same wf rfl rfl owned

end Embryo.Inet
