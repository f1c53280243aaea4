import Embryo.Inet.Reflect
import Embryo.Machine.Wire
import Embryo.Uipc.Intact
import Embryo.Uipc.Slice

namespace Embryo.Inet

open Embryo.Machine Embryo.Uipc
open Embryo.Kmem (Arena)

structure HostIfaddr extends Ifaddr where
  netbroadcast : UInt32
  subnet : UInt32
  net : UInt32
  ifp : Nat
  up : Bool
deriving DecidableEq

/-- `in_ifaddrlist`, and what the walk over the options of a packet asks for. -/
structure IpHost where
  inIfaddrlist : List HostIfaddr
  options : Hosts

def inIawithaddr (H : IpHost) (ina : UInt32) (recvif : Nat) : Option HostIfaddr :=
  H.inIfaddrlist.find? fun ia => (ina = ia.addr ∨ inaddrAny = ia.addr) ∨
    (ia.ifp = recvif ∧ ia.broadcast ∧ (ina = ia.broadaddr ∨ ina = ia.netbroadcast ∨
      ina = ia.subnet ∨ ina = ia.net))

/-- Whether a packet goes to the label `ours`. -/
def isOurs (H : IpHost) (dst : UInt32) (recvif : Nat) : Bool :=
  (inIawithaddr H dst recvif).any (fun ia => ia.up) || inaddrAny == dst || inaddrBroadcast == dst

/-- `m->m_len < len && !(m = mbuf_pullup(m, len))`: the chain is empty where it has been freed. -/
def contiguous (A : Arena) (fuel : Nat) (P : Pool) (m : Chain) (len : Nat) : Option (Chain × Pool) :=
  match m with
  | [] => none
  | first :: rest =>
    if first.len < len then mbufPullup A 0 fuel P (first :: rest) len else some (first :: rest, P)

/-- `ip_dooptions` on the header at `ip`: the error it finds, if any, and the memory as it leaves it. -/
def ipDooptions (H : Hosts) (mem : Memory) (ip : Nat) : Option (Option (Nat × Option Nat) × Memory) :=
  match ip_dooptions H (fun i => mem (ip + i)) (ipLen mem ip).toNat (ipSrc mem ip) (ipDst mem ip) with
  | none => none
  | some (visits, last) =>
    let mem := visits.foldl (fun mem visit => store mem (visit.2.2.writes.map fun w => (ip + w.1, w.2))) mem
    let mem := match visits.getLast? with
      | none => mem
      | some visit => setIpDst mem ip visit.2.2.dst
    match last with
    | .bad type code =>
      some (some (type, code), setIpLen mem ip (ipLen mem ip - UInt16.ofNat (4 * ipHlen mem ip)))
    | _ => some (none, mem)

/-- Where a packet goes: to the label `fail`, into nothing, to `icmp_error` for an option of it, to
    be forwarded, or to the `pr_input` of its protocol. -/
inductive IpInput where
  | fail (m : Chain) (P : Pool)
  | lost (P : Pool)
  | refused (type : Nat) (code : Option Nat) (m : Chain) (P : Pool)
  | forwarded (m : Chain) (P : Pool)
  | ours (m : Chain) (hlen : Nat) (P : Pool)

def ipv4Local (H : IpHost) (P : Pool) (m : Chain) (hlen : Nat) : Option IpInput :=
  match m with
  | [] => none
  | first :: rest =>
    let ip := first.data
    match if hlen > sizeofIp then ipDooptions H.options P.mem ip else some (none, P.mem) with
    | none => none
    | some (some (type, code), mem) => some (.refused type code (first :: rest) { P with mem })
    | some (none, mem) =>
      if isOurs H (ipDst mem ip) first.pkthdr.mpRecvif then
        some (.ours (first :: rest) hlen { P with mem := setIpLen mem ip (ipLen mem ip - UInt16.ofNat hlen) })
      else some (.forwarded (first :: rest) { P with mem })

def cutTo (first : Mbuf) (rest : Chain) (len : Nat) : Chain :=
  if first.pkthdr.mpLen > len then
    if first.pkthdr.mpLen = first.len then
      { first with len := len, pkthdr := { first.pkthdr with mpLen := len } } :: rest
    else mbufTrim (first :: rest) (first.pkthdr.mpLen - len) true
  else first :: rest

def ipv4Checked (H : IpHost) (P : Pool) (first : Mbuf) (rest : Chain) (hlen : Nat) : Option IpInput :=
  let ip := first.data
  let sum := UInt16.ofNat (inCksum P.mem (first :: rest) hlen)
  let mem := setIpSum P.mem ip sum
  if sum ≠ 0 then some (.fail (first :: rest) { P with mem })
  else
    let mem := setIpLen mem ip (ntohs (ipLen mem ip))
    let len := (ipLen mem ip).toNat
    if len < hlen then some (.fail (first :: rest) { P with mem })
    else
      let mem := setIpId mem ip (ntohs (ipId mem ip))
      let mem := setIpOff mem ip (ntohs (ipOff mem ip))
      if first.pkthdr.mpLen < len then some (.fail (first :: rest) { P with mem })
      else ipv4Local H { P with mem } (cutTo first rest len) hlen

def sizeofSizeof : Nat := 4

def ipv4Input (A : Arena) (H : IpHost) (fuel : Nat) (P : Pool) (m : Chain) : Option IpInput :=
  if H.inIfaddrlist = [] then some (.fail m P)
  else
    match contiguous A fuel P m sizeofIp with
    | none => none
    | some ([], P) => some (.fail [] P)
    | some (first :: rest, P) =>
      if ipVer P.mem first.data ≠ ipversion then some (.fail (first :: rest) P)
      else
        let hlen := ipHlen P.mem first.data * 4
        if hlen < sizeofSizeof then some (.fail (first :: rest) P)
        else
          match contiguous A fuel P (first :: rest) hlen with
          | none => none
          | some ([], P) => some (.lost P)
          | some (first :: rest, P) => ipv4Checked H P first rest hlen

def totalLength (data : List UInt8) : Nat := wire16 data 2

/-- A packet of the bytes `data`, received with this `mp_len` and in `first :: rest` now, is handed
    on as it should be. -/
structure Acceptable (data : List UInt8) (mpLen : Nat) (P : Pool) (first : Mbuf) (rest : Chain)
    (hlen : Nat) : Prop where
  version : ipVer P.mem first.data = ipversion
  header : hlen = 4 * ipHlen P.mem first.data
  least : sizeofIp ≤ hlen
  carried : (ipLen P.mem first.data).toNat + hlen = totalLength data
  held : hlen ≤ totalLength data
  received : totalLength data ≤ mpLen
  contiguous : hlen ≤ first.len
  checksum : inetChecksum (data.take hlen) = 0
  length : total (first :: rest) = totalLength data
  counted : first.pkthdr.mpLen = totalLength data

section

variable {h : Hosts} {mem : Memory} {dst src : UInt32} {p : Nat} {olen cnt : Int} {visit : Visit}

theorem Recorded.ahead (recorded : Recorded h mem dst p olen visit) : ∀ w ∈ visit.writes, p ≤ w.1 := by
  cases recorded with
  | refused _ | full _ _ _ _ | lost _ _ _ _ => exact no_writes
  | written addr b ptr _ _ _ =>
    intro w held
    rcases List.mem_append.mp held with word | byte
    · have := (mem_laidAt word).1
      omega
    · rw [List.mem_singleton.mp byte]
      exact Nat.le_add_right _ _

theorem Stamped.ahead (stamped : Stamped h mem dst p olen visit) : ∀ w ∈ visit.writes, p ≤ w.1 := by
  cases stamped with
  | refused _ | unflagged _ _ _ | unaddressed _ _ _ _ | elsewhere _ _ _ _ => exact no_writes
  | full b verdict _ _ _ _ =>
    intro w held
    rw [List.mem_singleton.mp held]
    exact Nat.le_add_right _ _
  | time stamp b _ _ _ =>
    intro w held
    rcases List.mem_append.mp held with word | byte
    · have := (mem_laidAt word).1
      omega
    · rw [List.mem_singleton.mp byte]
      exact Nat.le_add_right _ _
  | addressed addr stamp b c _ _ _ _ =>
    intro w held
    simp only [stampVisit, List.mem_append, List.mem_singleton] at held
    rcases held with ((word | byte) | word) | byte
    · have := (mem_laidAt word).1
      omega
    · rw [byte]
      exact Nat.le_add_right _ _
    · have := (mem_laidAt word).1
      omega
    · rw [byte]
      exact Nat.le_add_right _ _
  | here addr stamp b c _ _ _ _ =>
    intro w held
    simp only [stampVisit, List.mem_append, List.mem_singleton] at held
    rcases held with (byte | word) | byte
    · rw [byte]
      exact Nat.le_add_right _ _
    · have := (mem_laidAt word).1
      omega
    · rw [byte]
      exact Nat.le_add_right _ _

/-- An option changes nothing in front of it, and leaves the destination alone: no source route is
    ever recognised. -/
theorem optionStep_ahead :
    (∀ w ∈ (optionStep h mem dst src p cnt).writes, p ≤ w.1) ∧
      (optionStep h mem dst src p cnt).dst = dst := by
  unfold optionStep
  dsimp only
  split
  · exact ⟨no_writes, rfl⟩
  split
  · exact ⟨no_writes, rfl⟩
  split
  · exact ⟨no_writes, rfl⟩
  rename_i length
  rw [if_neg (schar_route (mem p))]
  split
  · have code := schar_eq (mem (p + 1))
    have byte := (mem (p + 1)).toNat_lt
    have small : optLen mem p < 128 := by
      simp only [optLen]
      split at code <;> omega
    have recorded := @recordRoute_recorded h mem p dst (schar (mem (p + 1)))
      (by rw [code, if_pos small]) small
    exact ⟨recorded.ahead, recorded.plain.2⟩
  split
  · have stamped := @timestamp_stamped h mem p dst (schar (mem (p + 1)))
    exact ⟨stamped.ahead, stamped.plain.2⟩
  · exact ⟨no_writes, rfl⟩

theorem optionLoop_ahead {fuel : Nat} {visits : List (Nat × Memory × Visit)} {last : Verdict}
    (runs : optionLoop h src fuel mem dst p cnt = some (visits, last)) :
    ∀ v ∈ visits, (∀ w ∈ v.2.2.writes, p ≤ w.1) ∧ v.2.2.dst = dst := by
  induction fuel generalizing mem p cnt visits with
  | zero => cases runs
  | succ fuel ih =>
    rw [optionLoop] at runs
    split at runs
    · simp only [Option.some.injEq, Prod.mk.injEq] at runs
      rw [← runs.1]
      exact fun v held => absurd held List.not_mem_nil
    · have step := @optionStep_ahead h mem dst src p cnt
      generalize optionStep h mem dst src p cnt = visit at step runs
      dsimp only at runs
      split at runs
      · rw [Option.map_eq_some_iff] at runs
        obtain ⟨⟨later, end_⟩, rest, same⟩ := runs
        simp only [Prod.mk.injEq] at same
        obtain ⟨rfl, rfl⟩ := same
        rw [step.2] at rest
        intro v held
        rcases List.mem_cons.mp held with rfl | held
        · exact step
        · obtain ⟨ahead, kept⟩ := ih rest v held
          exact ⟨fun w member => Nat.le_trans (Nat.le_add_right _ _) (ahead w member), kept⟩
      · simp only [Option.some.injEq, Prod.mk.injEq] at runs
        rw [← runs.1]
        intro v held
        rw [List.mem_singleton.mp held]
        exact step

end

theorem ipDooptions_front {H : Hosts} {mem mem' : Memory} {ip : Nat}
    (runs : ipDooptions H mem ip = some (none, mem')) :
    (∀ x, x < ip + 16 → mem' x = mem x) ∧ ipDst mem' ip = ipDst mem ip := by
  unfold ipDooptions at runs
  split at runs
  · cases runs
  rename_i visits last walked
  have ahead := optionLoop_ahead walked
  have stored : ∀ x < ip + 20,
      visits.foldl (fun mem visit => store mem (visit.2.2.writes.map fun w => (ip + w.1, w.2)))
          mem x = mem x := by
    intro x low
    clear walked runs
    generalize mem = mem₀
    induction visits generalizing mem₀ with
    | nil => rfl
    | cons v visits ih =>
      rw [List.foldl_cons, ih fun u held => ahead u (List.mem_cons_of_mem _ held)]
      apply store_other
      intro w held same
      obtain ⟨u, member, rfl⟩ := List.mem_map.mp held
      have := (ahead v List.mem_cons_self).1 u member
      dsimp only at same
      omega
  have kept := get32_congr (a := ip + 16) (fun x low high => stored x (by omega))
  generalize visits.foldl _ mem = mem₁ at stored kept runs
  have left : ∀ mem₂, (match visits.getLast? with
      | none => mem₁
      | some visit => setIpDst mem₁ ip visit.2.2.dst) = mem₂ →
        (∀ x, x < ip + 16 → mem₂ x = mem x) ∧ ipDst mem₂ ip = ipDst mem ip := by
    intro mem₂ same
    cases found : visits.getLast? with
    | none =>
      rw [found] at same
      rw [← same]
      exact ⟨fun x low => stored x (by omega), kept⟩
    | some visit =>
      rw [found] at same
      rw [← same]
      have dst := (ahead visit (List.mem_of_getLast? found)).2
      refine ⟨fun x low => ?_, ?_⟩
      · have outside : ¬ (ip + 16 ≤ x ∧ x < ip + 16 + (bytes32 visit.2.2.dst).length) := by omega
        exact (write_outside outside).trans (stored x (by omega))
      · exact (get32_write mem₁ (ip + 16) visit.2.2.dst).trans dst
  dsimp only at runs
  split at runs
  · simp at runs
  · simp only [Option.some.injEq, Prod.mk.injEq, true_and] at runs
    exact left mem' runs

section

variable {A : Arena} {H : IpHost} {P P' : Pool} {others : List Mbuf} {first : Mbuf} {rest m : Chain}
  {hlen hlen' : Nat}

theorem flatten_getD {mem : Memory} {i : Nat} (inside : i < first.len) :
    (flatten mem (first :: rest)).getD i 0 = mem (first.data + i) := by
  rw [flatten_cons, List.getD_append _ _ _ _ (by rw [bytes_length]; exact inside), bytes_getD inside]

theorem contiguous_whole {fuel len : Nat} (long : len ≤ first.len) :
    contiguous A fuel P (first :: rest) len = some (first :: rest, P) := if_neg (Nat.not_lt.mpr long)

theorem contiguous_joined {fuel len : Nat} (intact : Intact A P others first rest) (small : len < 2^32)
    (call : contiguous A fuel P (first :: rest) len = some (m, P')) (kept : m ≠ []) :
    ∃ first' rest', m = first' :: rest' ∧ Joined A P P' others (first :: rest) len first' rest' := by
  rw [contiguous] at call
  split at call
  · exact intact.pullup small call kept
  · rename_i long
    simp only [Option.some.injEq, Prod.mk.injEq] at call
    obtain ⟨rfl, rfl⟩ := call
    exact ⟨first, rest, rfl, intact, rfl, Nat.not_lt.mp long, .refl _ _, .inl rfl⟩

theorem cutTo_spec {len : Nat} (intact : Intact A P others first rest) (word : total (first :: rest) < 2^32)
    (within : len ≤ first.pkthdr.mpLen) :
    ∃ first' rest', cutTo first rest len = first' :: rest' ∧ Intact A P others first' rest' ∧
      flatten P.mem (first' :: rest') = (flatten P.mem (first :: rest)).take len ∧
      first'.data = first.data ∧ first'.len = min first.len len ∧
        first'.pkthdr.mpRecvif = first.pkthdr.mpRecvif ∧
      (Own first rest → Own first' rest') := by
  have mpLen := intact.mpLen
  have sum := total_cons first rest
  rw [cutTo]
  split
  · rename_i longer
    split
    · rename_i whole
      have empty : flatten P.mem rest = [] := List.eq_nil_of_length_eq_zero (by rw [flatten_length]; omega)
      obtain ⟨wf, fits, flagged, plain, _⟩ := intact
      obtain ⟨fit, fitsRest⟩ := List.forall_mem_cons.mp fits
      have cut : Uipc.Cut first { first with
        len := len, pkthdr := { first.pkthdr with mpLen := len } } := ⟨rfl, by dsimp only; omega⟩
      have same : List.Forall₂ Uipc.Cut rest rest := List.forall₂_same.mpr fun e _ => ⟨rfl, Nat.le_refl _⟩
      refine ⟨_, rest, rfl, ⟨wf.adjust rfl rfl rfl (fun _ => rfl), ?_, flagged, plain, ?_⟩, ?_, rfl, ?_, rfl,
        fun own => own.cut cut same⟩
      · exact List.forall_mem_cons.mpr ⟨cut.fit fit, fitsRest⟩
      · rw [total_cons]
        dsimp only
        omega
      · rw [flatten_cons, flatten_cons, empty, List.append_nil, List.append_nil, bytes_take _ (by omega)]
      · dsimp only
        omega
    · obtain ⟨first', rest', shape, kept, data, place, len', recvif, own⟩ :=
        intact.trim word (first.pkthdr.mpLen - len)
      have left : total (first :: rest) - (first.pkthdr.mpLen - len) = len := by omega
      rw [left] at data len'
      exact ⟨first', rest', shape, kept, data, place, len', recvif, own⟩
  · refine ⟨first, rest, rfl, intact, ?_, rfl, ?_, rfl, id⟩
    · rw [List.take_of_length_le]
      rw [flatten_length]
      omega
    · omega

theorem ipv4Local_ours (run : ipv4Local H P (first :: rest) hlen = some (.ours m hlen' P')) :
    m = first :: rest ∧ hlen' = hlen ∧ isOurs H (ipDst P.mem first.data) first.pkthdr.mpRecvif = true ∧
      ∃ mem, P' = { P with mem := setIpLen mem first.data (ipLen mem first.data - UInt16.ofNat hlen) } ∧
        (∀ x, x < first.data + 16 → mem x = P.mem x) ∧ ipDst mem first.data = ipDst P.mem first.data ∧
        (hlen ≤ sizeofIp → mem = P.mem) := by
  rw [ipv4Local] at run
  split at run
  · cases run
  · cases run
  · rename_i mem optioned
    have front : (∀ x, x < first.data + 16 → mem x = P.mem x) ∧
      ipDst mem first.data = ipDst P.mem first.data ∧
        (hlen ≤ sizeofIp → mem = P.mem) := by
      split at optioned
      · rename_i options
        have kept := ipDooptions_front optioned
        exact ⟨kept.1, kept.2, fun short => absurd options (Nat.not_lt.mpr short)⟩
      · simp only [Option.some.injEq, Prod.mk.injEq, true_and] at optioned
        rw [← optioned]
        exact ⟨fun _ _ => rfl, rfl, fun _ => rfl⟩
    split at run
    · rename_i ours
      simp only [Option.some.injEq, IpInput.ours.injEq] at run
      obtain ⟨rfl, rfl, rfl⟩ := run
      rw [front.2.1] at ours
      exact ⟨rfl, rfl, ours, mem, rfl, front⟩
    · cases run

def hostOrder (mem : Memory) (ip : Nat) : Memory :=
  let mem := setIpSum mem ip 0
  let mem := setIpLen mem ip (ntohs (ipLen mem ip))
  let mem := setIpId mem ip (ntohs (ipId mem ip))
  setIpOff mem ip (ntohs (ipOff mem ip))

theorem write16_outside {mem : Memory} {a x : Nat} {v : UInt16} (outside : ¬ (a ≤ x ∧ x < a + 2)) :
    write mem a (bytes16 v) x = mem x := write_outside outside

theorem hostOrder_front (mem : Memory) {ip x : Nat} (low : x < ip + 2) : hostOrder mem ip x = mem x := by
  simp only [hostOrder, setIpOff, setIpId, setIpLen, setIpSum]
  rw [write16_outside (by omega), write16_outside (by omega), write16_outside (by omega),
    write16_outside (by omega)]

theorem hostOrder_behind (mem : Memory) {ip x : Nat} (high : ip + 12 ≤ x) : hostOrder mem ip x = mem x := by
  simp only [hostOrder, setIpOff, setIpId, setIpLen, setIpSum]
  rw [write16_outside (by omega), write16_outside (by omega), write16_outside (by omega),
    write16_outside (by omega)]

theorem hostOrder_len (mem : Memory) (ip : Nat) : ipLen (hostOrder mem ip) ip = ntohs (ipLen mem ip) := by
  have later : ipLen (hostOrder mem ip) ip =
      ipLen (setIpLen (setIpSum mem ip 0) ip (ntohs (ipLen (setIpSum mem ip 0) ip))) ip := by
    apply get16_congr
    intro x low high
    simp only [hostOrder, setIpOff, setIpId]
    rw [write16_outside (by omega), write16_outside (by omega)]
  have before : ipLen (setIpSum mem ip 0) ip = ipLen mem ip :=
    get16_congr fun x low high => write16_outside (by omega)
  rw [later, before]
  exact get16_write _ _ _

theorem hostOrder_dst (mem : Memory) (ip : Nat) : ipDst (hostOrder mem ip) ip = ipDst mem ip :=
  get32_congr fun _ low _ => hostOrder_behind mem (by omega)

structure Passable (mem : Memory) (first : Mbuf) (rest : Chain) (hlen : Nat) : Prop where
  checksum : inCksum mem (first :: rest) hlen = 0
  least : hlen ≤ (ntohs (ipLen mem first.data)).toNat
  received : (ntohs (ipLen mem first.data)).toNat ≤ first.pkthdr.mpLen

theorem ipv4Checked_sound (sound : Passable P.mem first rest hlen) :
    ipv4Checked H P first rest hlen = ipv4Local H { P with mem := hostOrder P.mem first.data }
      (cutTo first rest (ntohs (ipLen P.mem first.data)).toNat) hlen := by
  have before : ipLen (setIpSum P.mem first.data 0) first.data = ipLen P.mem first.data :=
    get16_congr fun x low high => write16_outside (by omega)
  have after (v : UInt16) : ipLen (setIpLen (setIpSum P.mem first.data 0) first.data v) first.data =
    v := get16_write _ _ _
  have zero : UInt16.ofNat 0 = 0 := rfl
  unfold ipv4Checked
  simp only [sound.checksum, zero, ne_eq, not_true_eq_false, if_false, before, after]
  rw [if_neg (Nat.not_lt.mpr sound.least), if_neg (Nat.not_lt.mpr sound.received)]
  simp only [hostOrder, before]

theorem ipv4Checked_unsound (unsound : ¬ Passable P.mem first rest hlen) :
    ∃ P', ipv4Checked H P first rest hlen = some (.fail (first :: rest) P') := by
  unfold ipv4Checked
  dsimp only
  split
  · exact ⟨_, rfl⟩
  rename_i good
  have small : inCksum P.mem (first :: rest) hlen ≤ 0xffff := Nat.sub_le _ _
  have checksum : inCksum P.mem (first :: rest) hlen = 0 := by
    have zero := congrArg UInt16.toNat (not_not.mp good)
    rw [UInt16.toNat_ofNat', Nat.mod_eq_of_lt (by omega)] at zero
    exact zero
  have before : ipLen (setIpSum P.mem first.data
    (UInt16.ofNat (inCksum P.mem (first :: rest) hlen))) first.data =
    ipLen P.mem first.data := get16_congr fun x low high => write16_outside (by omega)
  have after (v : UInt16) : ipLen (setIpLen (setIpSum P.mem first.data
    (UInt16.ofNat (inCksum P.mem (first :: rest) hlen))) first.data v) first.data = v := get16_write _ _ _
  rw [before, after]
  split
  · exact ⟨_, rfl⟩
  rename_i least
  split
  · exact ⟨_, rfl⟩
  rename_i received
  exact absurd ⟨checksum, Nat.not_lt.mp least, Nat.not_lt.mp received⟩ unsound

theorem inCksum_front (intact : Intact A P others first rest) (short : hlen ≤ 65535) :
    inCksum P.mem (first :: rest) hlen = inetChecksum ((flatten P.mem (first :: rest)).take hlen) := by
  apply inCksum_take P.mem _ short
  intro e member
  have := Mbuf.Fit.len_lt (intact.fits e member)
  simp only [mCopyall] at this
  omega

theorem ipv4Checked_accepted (intact : Intact A P others first rest) (word : total (first :: rest) < 2^32)
    (version : ipVer P.mem first.data = ipversion) (header : hlen = ipHlen P.mem first.data * 4)
    (twenty : sizeofIp ≤ first.len) (long : hlen ≤ first.len)
    (run : ipv4Checked H P first rest hlen = some (.ours m hlen' P')) (least : sizeofIp ≤ hlen) :
    ∃ first' rest', m = first' :: rest' ∧
      Acceptable (flatten P.mem (first :: rest)) first.pkthdr.mpLen P' first' rest' hlen' := by
  by_cases sound : Passable P.mem first rest hlen
  · rw [ipv4Checked_sound sound] at run
    obtain ⟨first', rest', shape, cut, data, place, len, recvif, _⟩ := cutTo_spec intact word sound.received
    rw [shape] at run
    obtain ⟨rfl, rfl, ours, mem, rfl, front, _⟩ := ipv4Local_ours run
    rw [place] at front
    have low : ∀ x, x < first.data + 2 → mem x = P.mem x := by
      intro x below
      rw [front x (by omega)]
      exact hostOrder_front P.mem below
    have byte : setIpLen mem first'.data (ipLen mem first'.data - UInt16.ofNat hlen') first'.data =
        P.mem first.data := by
      rw [place]
      exact (write16_outside (by omega)).trans (low first.data (by omega))
    have held : ipLen mem first.data = ntohs (ipLen P.mem first.data) := by
      rw [← hostOrder_len]
      exact get16_congr fun x _ high => front x (by omega)
    have sixty : hlen' ≤ 60 := by
      rw [header, ipHlen]
      omega
    have bound := (ntohs (ipLen P.mem first.data)).toNat_lt
    have carried : (ntohs (ipLen P.mem first.data)).toNat = totalLength (flatten P.mem (first :: rest)) := by
      rw [totalLength, wire16, ipLen, ntohs_get16]
      simp only [sizeofIp] at twenty
      rw [flatten_getD (by omega), flatten_getD (by omega)]
    have small : (UInt16.ofNat hlen').toNat = hlen' := Nat.mod_eq_of_lt (by omega)
    have sub : (ntohs (ipLen P.mem first.data) - UInt16.ofNat hlen').toNat =
        (ntohs (ipLen P.mem first.data)).toNat - hlen' := by
      rw [UInt16.toNat_sub_of_le]
      · rw [small]
      · rw [UInt16.le_iff_toNat_le, small]
        exact sound.least
    have stored : ipLen (setIpLen mem first'.data (ipLen mem first'.data - UInt16.ofNat hlen')) first'.data =
        ntohs (ipLen P.mem first.data) - UInt16.ofNat hlen' := by
      rw [place, held]
      exact get16_write _ _ _
    have size := congrArg List.length data
    rw [flatten_length, List.length_take, flatten_length, ← intact.mpLen] at size
    have within := sound.received
    refine ⟨first', rest', rfl, ?_, ?_, least, ?_, ?_, ?_, ?_, ?_, ?_, ?_⟩
    · exact (congrArg (fun b : UInt8 => b.toNat / 16) byte).trans version
    · refine (header.trans (Nat.mul_comm _ _)).trans ?_
      exact congrArg (fun b : UInt8 => 4 * (b.toNat % 16)) byte.symm
    · refine (congrArg (fun l : UInt16 => l.toNat + hlen') stored).trans ?_
      have := sound.least
      rw [sub, ← carried]
      omega
    · rw [← carried]
      exact sound.least
    · rw [← carried]
      exact within
    · rw [len]
      exact Nat.le_min.mpr ⟨long, sound.least⟩
    · rw [← inCksum_front intact (by omega)]
      exact sound.checksum
    · rw [size, carried]
      omega
    · rw [cut.mpLen, size, carried]
      omega
  · obtain ⟨Q, failed⟩ := @ipv4Checked_unsound H P first rest hlen sound
    rw [failed] at run
    cases run

end

def Prepared (A : Arena) (P : Pool) (m : Chain) (first : Mbuf) (rest : Chain) (P' : Pool) : Prop :=
  ∃ fuel, contiguous A fuel P m sizeofIp = some (first :: rest, P')

structure Undersized (H : IpHost) (mem : Memory) (first : Mbuf) : Prop where
  addressed : H.inIfaddrlist ≠ []
  version : ipVer mem first.data = ipversion
  some : 0 < ipHlen mem first.data
  short : ipHlen mem first.data < 5
  checksum : inetChecksum (bytes mem first.data (ipHlen mem first.data * 4)) = 0
  least : ipHlen mem first.data * 4 ≤ (ntohs (ipLen mem first.data)).toNat
  received : (ntohs (ipLen mem first.data)).toNat ≤ first.pkthdr.mpLen
  ours : isOurs H (ipDst mem first.data) first.pkthdr.mpRecvif = true

section

variable {A : Arena} {H : IpHost} {P P' : Pool} {others : List Mbuf} {first first' : Mbuf}
  {rest rest' m : Chain} {hlen fuel : Nat}

theorem flatten_take {mem : Memory} {k : Nat} (inside : k ≤ first.len) :
    (flatten mem (first :: rest)).take k = bytes mem first.data k := by
  rw [flatten_cons, List.take_append_of_le_length (by rw [bytes_length]; exact inside), bytes_take mem inside]

theorem undersized_passes (intact : Intact A P others first rest) (word : total (first :: rest) < 2^32)
    (call : contiguous A fuel P (first :: rest) sizeofIp = some (first' :: rest', P'))
    (undersized : Undersized H P'.mem first') :
    ∃ m Q, ipv4Input A H fuel P (first :: rest) = some (.ours m (ipHlen P'.mem first'.data * 4) Q) := by
  obtain ⟨addressed, version, positive, short, checksum, least, received, ours⟩ := undersized
  obtain ⟨first', rest', same, joined⟩ := contiguous_joined intact (by decide) call (List.cons_ne_nil _ _)
  obtain ⟨rfl, rfl⟩ := List.cons.inj same
  have twenty := joined.long
  have size := joined.total
  simp only [sizeofIp] at twenty
  have sound : Passable P'.mem first' rest' (ipHlen P'.mem first'.data * 4) :=
    ⟨by rw [inCksum_front joined.intact (by omega), flatten_take (by omega), checksum], least, received⟩
  obtain ⟨first'', rest'', shape, _, _, place, _, recvif, _⟩ := cutTo_spec joined.intact (by omega) received
  have again := @contiguous_whole A P' first' rest' fuel (ipHlen P'.mem first'.data * 4) (by omega)
  have admitted : ¬ ipHlen P'.mem first'.data * 4 < sizeofSizeof := by
    simp only [sizeofSizeof]
    omega
  have optionless : ¬ ipHlen P'.mem first'.data * 4 > sizeofIp := by
    simp only [sizeofIp]
    omega
  rw [ipv4Input, if_neg addressed, call]
  simp only [version, ne_eq, not_true_eq_false, if_false]
  rw [if_neg admitted, again]
  simp only
  rw [ipv4Checked_sound sound, shape, ipv4Local]
  simp only [if_neg optionless]
  rw [place, hostOrder_dst, recvif, if_pos ours]
  exact ⟨_, _, rfl⟩

/-- What gets through with a header of fewer than 20 bytes was undersized when its first 20 bytes
    were put together. -/
theorem short_undersized (intact : Intact A P others first rest) (word : total (first :: rest) < 2^32)
    (twenty : 20 ≤ first.len) (addressed : H.inIfaddrlist ≠ []) (version : ipVer P.mem first.data = ipversion)
    (positive : 4 ≤ ipHlen P.mem first.data * 4) (short : ipHlen P.mem first.data * 4 < 20)
    (run : ipv4Checked H P first rest (ipHlen P.mem first.data * 4) = some (.ours m hlen P')) :
    Undersized H P.mem first := by
  by_cases sound : Passable P.mem first rest (ipHlen P.mem first.data * 4)
  · rw [ipv4Checked_sound sound] at run
    obtain ⟨first', rest', shape, _, _, place, _, recvif, _⟩ := cutTo_spec intact word sound.received
    rw [shape] at run
    obtain ⟨_, _, ours, _⟩ := ipv4Local_ours run
    have checksum := sound.checksum
    rw [inCksum_front intact (by omega), flatten_take (by omega)] at checksum
    rw [place, hostOrder_dst, recvif] at ours
    exact ⟨addressed, version, by omega, by omega, checksum, sound.least, sound.received, ours⟩
  · obtain ⟨Q, failed⟩ := @ipv4Checked_unsound H P first rest _ sound
    rw [failed] at run
    cases run

/-- A packet with its header in its first mbuf `first`, made of the packet `chain`. -/
structure Headed (A : Arena) (P P' : Pool) (others : List Mbuf) (chain : Chain) (first : Mbuf)
    (rest : Chain) : Prop where
  joined : Joined A P P' others chain (ipHlen P'.mem first.data * 4) first rest
  twenty : 20 ≤ first.len
  version : ipVer P'.mem first.data = ipversion
  admitted : sizeofSizeof ≤ ipHlen P'.mem first.data * 4

theorem ipv4Input_headed (intact : Intact A P others first rest)
    (run : ipv4Input A H fuel P (first :: rest) = some (.ours m hlen P')) :
    H.inIfaddrlist ≠ [] ∧ ∃ first₂ rest₂ P₂, Headed A P P₂ others (first :: rest) first₂ rest₂ ∧
      ipv4Checked H P₂ first₂ rest₂ (ipHlen P₂.mem first₂.data * 4) = some (.ours m hlen P') ∧
      (ipHlen P₂.mem first₂.data * 4 < 20 →
        contiguous A fuel P (first :: rest) sizeofIp = some (first₂ :: rest₂, P₂)) := by
  rw [ipv4Input] at run
  split at run
  · cases run
  rename_i addressed
  refine ⟨addressed, ?_⟩
  split at run
  · cases run
  · cases run
  rename_i first₁ rest₁ P₁ call₁
  obtain ⟨_, _, same, joined₁⟩ := contiguous_joined intact (by decide) call₁ (List.cons_ne_nil _ _)
  obtain ⟨rfl, rfl⟩ := List.cons.inj same
  have twenty := joined₁.long
  split at run
  · cases run
  rename_i version
  dsimp only at run
  split at run
  · cases run
  rename_i admitted
  simp only [sizeofIp] at twenty
  split at run
  · cases run
  · cases run
  rename_i first₂ rest₂ P₂ call₂
  have sixty : ipHlen P₁.mem first₁.data * 4 < 2^32 := by
    rw [ipHlen]
    omega
  obtain ⟨_, _, same, joined₂⟩ := contiguous_joined joined₁.intact sixty call₂ (List.cons_ne_nil _ _)
  obtain ⟨rfl, rfl⟩ := List.cons.inj same
  by_cases whole : first₁.len < ipHlen P₁.mem first₁.data * 4
  · have longer := joined₂.long
    have byte := congrArg (fun data : List UInt8 => data.getD 0 0) joined₂.data
    rw [flatten_getD (by omega), flatten_getD (by omega)] at byte
    have header : ipHlen P₂.mem first₂.data = ipHlen P₁.mem first₁.data :=
      congrArg (fun b : UInt8 => b.toNat % 16) byte
    have sameVersion : ipVer P₂.mem first₂.data = ipVer P₁.mem first₁.data :=
      congrArg (fun b : UInt8 => b.toNat / 16) byte
    refine ⟨first₂, rest₂, P₂, ⟨header ▸ joined₁.trans joined₂, by
      omega, sameVersion.trans (not_not.mp version), ?_⟩, ?_, ?_⟩
    · rw [header]
      exact Nat.not_lt.mp admitted
    · rw [header]
      exact run
    · intro short
      omega
  · rw [contiguous, if_neg whole] at call₂
    simp only [Option.some.injEq, Prod.mk.injEq, List.cons.injEq] at call₂
    obtain ⟨⟨rfl, rfl⟩, rfl⟩ := call₂
    exact ⟨first₁, rest₁, P₁, ⟨joined₁.trans joined₂, twenty, not_not.mp version,
      Nat.not_lt.mp admitted⟩, run, fun _ => call₁⟩

/-- Everything that `ipv4_input` hands on is as it should be, exactly where no short header gets through. -/
theorem input_accepts_iff (intact : Intact A P others first rest) (word : total (first :: rest) < 2^32) :
    (∀ fuel m hlen P', ipv4Input A H fuel P (first :: rest) = some (.ours m hlen P') →
      ∃ first' rest', m = first' :: rest' ∧
        Acceptable (flatten P.mem (first :: rest)) first.pkthdr.mpLen P' first' rest' hlen) ↔
      ∀ first' rest' P', Prepared A P (first :: rest) first' rest' P' → ¬ Undersized H P'.mem first' := by
  constructor
  · rintro accepts first' rest' P' ⟨fuel, call⟩ undersized
    have short := undersized.short
    obtain ⟨m, Q, run⟩ := undersized_passes intact word call undersized
    obtain ⟨_, _, _, accepted⟩ := accepts fuel m _ Q run
    have enough := accepted.least
    simp only [sizeofIp] at enough
    omega
  · intro sized fuel m hlen P' run
    obtain ⟨addressed, first₂, rest₂, P₂, headed, checked, whole⟩ := ipv4Input_headed intact run
    have joined := headed.joined
    have size := joined.total
    have admitted := headed.admitted
    simp only [sizeofSizeof] at admitted
    by_cases least : sizeofIp ≤ ipHlen P₂.mem first₂.data * 4
    · obtain ⟨first', rest', shape, accepted⟩ :=
        ipv4Checked_accepted joined.intact (by omega) headed.version rfl headed.twenty
        joined.long checked least
      rw [joined.data, joined.intact.mpLen, size, ← intact.mpLen] at accepted
      exact ⟨first', rest', shape, accepted⟩
    · simp only [sizeofIp] at least
      exact absurd (short_undersized joined.intact (by omega)
        headed.twenty addressed headed.version admitted (by omega) checked)
        (sized first₂ rest₂ P₂ ⟨fuel, whole (by omega)⟩)

end

/-- A host with the address 192.168.1.5, and a packet for it whose header calls itself 8 bytes long. -/
def lone : IpHost := ⟨[⟨⟨htonl 0xc0a80105, 0, false⟩, 0, 0, 0, 1, true⟩], finder⟩

def stunted : List UInt8 := [0x42, 0, 0, 20, 0xbd, 0xeb, 0, 0, 64, 17, 0, 0, 192, 168, 1, 9, 192, 168, 1, 5]

def grown : List UInt8 := [0x45, 0, 0, 20, 0, 0, 0, 0, 64, 17, 0xf7, 0x7a, 192, 168, 1, 9, 192, 168, 1, 5]

abbrev arrived : Mbuf := { mbufOf pktGet with len := 20, pkthdr := ⟨20, 1⟩ }
abbrev arrivedPool (header : List UInt8) : Pool :=
  { pktGet.2 with mem := write pktGet.2.mem arrived.data header }

def IpInput.handed : IpInput → Option (Chain × Nat × Pool)
  | .ours m hlen P => some (m, hlen, P)
  | _ => none

theorem handed_ours {o : Option IpInput} (handed : (o.bind IpInput.handed).isSome) :
    ∃ m hlen P, o = some (.ours m hlen P) := by
  cases o with
  | none => cases handed
  | some i =>
    cases i with
    | ours m hlen P => exact ⟨m, hlen, P, rfl⟩
    | _ => cases handed

theorem arrived_answers :
    (arrived.room.addr ≤ arrived.data ∧ arrived.data + 20 ≤ arrived.room.stop) ∧
    (((ipv4Input Kmem.board lone 0 (arrivedPool grown) [arrived]).bind IpInput.handed).isSome = true ∧
      ipHlen (arrivedPool grown).mem arrived.data = 5) ∧
    ipHlen (arrivedPool stunted).mem arrived.data = 2 ∧
      ipVer (arrivedPool stunted).mem arrived.data = ipversion ∧
      inetChecksum (bytes (arrivedPool stunted).mem arrived.data 8) = 0 ∧
      (ntohs (ipLen (arrivedPool stunted).mem arrived.data)).toNat = 20 ∧
      isOurs lone (ipDst (arrivedPool stunted).mem arrived.data) arrived.pkthdr.mpRecvif = true := by
  decide +kernel

theorem arrived_intact {header : List UInt8} (size : header.length = 20) :
    Intact Kmem.board (arrivedPool header) [] arrived [] := by
  have edit := @Reachable.edit_head _ _ _ _ _ arrived pktGet_reachable rfl rfl rfl rfl
  obtain ⟨low, high⟩ := arrived_answers.1
  have window : Windowed arrived 20 := ⟨low, high⟩
  have fit : arrived.Fit := ⟨low, high⟩
  exact ⟨edit.wf.write_window window (SameBut.write _ (Nat.le_refl _) (by omega)),
    List.forall_mem_singleton.mpr fit, rfl,
    fun _ member => absurd member List.not_mem_nil, rfl⟩

theorem grown_accepted : ∃ m hlen P', ipv4Input Kmem.board lone 0 (arrivedPool grown)
    [arrived] = some (.ours m hlen P') ∧
    ∃ first' rest', m = first' :: rest' ∧
      Acceptable (flatten (arrivedPool grown).mem [arrived]) 20 P' first' rest' hlen := by
  obtain ⟨-, ⟨handed, five⟩, -⟩ := arrived_answers
  obtain ⟨m, hlen, P', run⟩ := handed_ours handed
  refine ⟨m, hlen, P', run, ?_⟩
  refine (@input_accepts_iff Kmem.board lone (arrivedPool grown) [] arrived []
    (arrived_intact (by decide)) (by decide)).mpr ?_
    0 m hlen P' run
  rintro first' rest' P' ⟨fuel, call⟩ undersized
  have together := @contiguous_whole Kmem.board (arrivedPool grown) arrived [] fuel sizeofIp (by decide)
  rw [together] at call
  simp only [Option.some.injEq, Prod.mk.injEq, List.cons.injEq] at call
  obtain ⟨⟨rfl, rfl⟩, rfl⟩ := call
  have short := undersized.short
  omega

/-- A header length of 8 is let through: `sizeof(sizeof(struct ip))` is 4. -/
theorem stunted_accepted : ¬ ∀ fuel m hlen P',
    ipv4Input Kmem.board lone fuel (arrivedPool stunted) [arrived] = some (.ours m hlen P') →
      ∃ first' rest', m = first' :: rest' ∧
        Acceptable (flatten (arrivedPool stunted).mem [arrived]) 20 P' first' rest' hlen := by
  intro accepts
  obtain ⟨-, -, two, version, summed, total, ours⟩ := arrived_answers
  have undersized : Undersized lone (arrivedPool stunted).mem arrived := by
    refine ⟨by decide, version, ?_, ?_, ?_, ?_, ?_, ours⟩
    · rw [two]
      decide
    · rw [two]
      decide
    · rw [two]
      exact summed
    · rw [two, total]
      decide
    · rw [total]
  obtain ⟨m, Q, run⟩ := @undersized_passes Kmem.board lone (arrivedPool stunted)
    (arrivedPool stunted) [] arrived arrived [] [] 0
    (arrived_intact (by decide)) (by decide) (contiguous_whole (by decide)) undersized
  obtain ⟨_, _, _, accepted⟩ := accepts 0 m _ Q run
  have enough := accepted.least
  rw [two] at enough
  exact absurd enough (by decide)

end Embryo.Inet
