import Embryo.Inet.Reflect

namespace Embryo.Inet

open Embryo.Machine Embryo.Uipc
open Embryo.Kmem (Arena)

def mtData : Nat := 2
def ipMaxpacket : Nat := 65535
def inaddrNone : UInt32 := 0xffffffff

/-- Where the header and the options go: in front of the data of the packet, or in an mbuf of their
    own. There is no result where `mbuf_getpkt` does not return. -/
def optionRoom (A : Arena) (P : Pool) (first : Mbuf) (rest : Chain) (optlen : Nat) :
    Option (Option (Mbuf × Chain) × Pool) :=
  if first.flags.ext ∨ wsub first.data optlen < first.pktdat then
    if ¬ mbufGetpktReturns A P mtData then none
    else
      match mbufGetpkt A P mtData with
      | (none, P) => some (none, P)
      | (some n, P) =>
        let n := copyPkthdr n first
        let n :=
          { n with
            pkthdr := { n.pkthdr with mpLen := wrap (first.pkthdr.mpLen + optlen) }, len :=
              wrap (sizeofIp + optlen) }
        let first :=
          { first.dropPkthdr with len := wsub first.len sizeofIp, data := wrap (first.data + sizeofIp) }
        some (some (n, first :: rest), P)
  else
    let first := { first with
      data := wsub first.data optlen
      len := wrap (first.len + optlen)
      pkthdr := { first.pkthdr with mpLen := wrap (first.pkthdr.mpLen + optlen) } }
    some (some (first, rest), P)

def storeOptions (P : Pool) (m mo : Mbuf) (optlen : Nat) : Option Pool :=
  match P.fill m mo.data m.data sizeofIp with
  | none => none
  | some P =>
    let ip := m.data
    match P.fill m (mo.data + 4) (ip + sizeofIp) optlen with
    | none => none
    | some P =>
      let mem := setIpHlen P.mem ip ((sizeofIp + optlen) / 4)
      let mem := setIpLen mem ip (ipLen mem ip + UInt16.ofNat optlen)
      let dst := get32 mem mo.data
      some { P with mem := if dst ≠ inaddrNone then setIpDst mem ip dst else mem }

/-- `ip_insertoptions`; its variable `optlen` is compared before it is set, so what it holds is a
    parameter. -/
def ipInsertoptions (A : Arena) (P : Pool) (m : Chain) (mo : Mbuf) (optlen : Int) : Option (Chain × Pool) :=
  match m with
  | [] => none
  | first :: rest =>
    let ip := mo.data
    if (ipLen P.mem ip).toNat + optlen > ipMaxpacket then some (first :: rest, P)
    else
      let optlen := wsub mo.len 4
      match optionRoom A P first rest optlen with
      | none => none
      | some (none, P) => some (first :: rest, P)
      | some (some (first, rest), P) =>
        match storeOptions P first mo optlen with
        | none => none
        | some P => some (first :: rest, P)

def ipStripoptions (P : Pool) (m : Mbuf) (mo : Option Mbuf) : Option (Mbuf × Option Mbuf × Pool) :=
  let ip := m.data
  let hlen := ipHlen P.mem ip * 4
  if hlen ≤ sizeofIp then some (m, mo, P)
  else
    let olen := hlen - sizeofIp
    match (match mo with
      | none => some P
      | some mo => P.fill mo (ip + sizeofIp) mo.data olen) with
    | none => none
    | some P =>
      let mo := mo.map fun mo => { mo with len := olen }
      match P.fill m (ip + sizeofIp + olen) (ip + sizeofIp) (wsub m.len hlen) with
      | none => none
      | some P =>
        let mem := setIpHlen P.mem ip (sizeofIp / 4)
        let mem := setIpLen mem ip (ipLen mem ip - UInt16.ofNat olen)
        let m := { m with len := wsub m.len olen }
        let m := if m.flags.pkthdr then
          { m with pkthdr := { m.pkthdr with mpLen := wsub m.pkthdr.mpLen olen } } else m
        some (m, mo, { P with mem })

/-- The fields of the header at `ip'` are those of the one at `ip`, apart from the two lengths and
    the destination. -/
structure SameFields (mem : Memory) (ip : Nat) (mem' : Memory) (ip' : Nat) : Prop where
  version : ipVer mem' ip' = ipVer mem ip
  tos : mem' (ip' + 1) = mem (ip + 1)
  id : ipId mem' ip' = ipId mem ip
  off : ipOff mem' ip' = ipOff mem ip
  ttl : ipTtl mem' ip' = ipTtl mem ip
  pro : ipPro mem' ip' = ipPro mem ip
  sum : ipSum mem' ip' = ipSum mem ip
  src : ipSrc mem' ip' = ipSrc mem ip

/-- The packet `first' :: rest'` is `first :: rest` with the options `list` in its header. -/
structure Inserted (P P' : Pool) (first : Mbuf) (rest : Chain) (first' : Mbuf) (rest' : Chain)
    (list : List UInt8) : Prop where
  fields : SameFields P.mem first.data P'.mem first'.data
  dst : ipDst P'.mem first'.data = ipDst P.mem first.data
  hlen : ipHlen P'.mem first'.data * 4 = ipHlen P.mem first.data * 4 + list.length
  ipLen : (ipLen P'.mem first'.data).toNat = (ipLen P.mem first.data).toNat + list.length
  options : bytes P'.mem (first'.data + sizeofIp) list.length = list
  payload : (flatten P'.mem (first' :: rest')).drop (sizeofIp + list.length) =
    (flatten P.mem (first :: rest)).drop sizeofIp
  headed : sizeofIp + list.length ≤ first'.len
  total : total (first' :: rest') = total (first :: rest) + list.length
  flagged : first'.flags.pkthdr = true
  mpLen : first'.pkthdr.mpLen = first.pkthdr.mpLen + list.length

/-- The packet `first' :: rest'` has become `first :: rest` again, as `P` held it. -/
structure Restored (P P' : Pool) (first : Mbuf) (rest : Chain) (first' : Mbuf) (rest' : Chain) : Prop where
  fields : SameFields P.mem first.data P'.mem first'.data
  dst : ipDst P'.mem first'.data = ipDst P.mem first.data
  hlen : ipHlen P'.mem first'.data = ipHlen P.mem first.data
  ipLen : ipLen P'.mem first'.data = ipLen P.mem first.data
  payload : (flatten P'.mem (first' :: rest')).drop sizeofIp = (flatten P.mem (first :: rest)).drop sizeofIp
  total : total (first' :: rest') = total (first :: rest)
  mpLen : first'.pkthdr.mpLen = first.pkthdr.mpLen

def Inverse (A : Arena) (P : Pool) (first : Mbuf) (rest : Chain) (mo : Mbuf) (junk : Int)
    (copy : Mbuf) : Prop :=
  ∃ first' rest' P', ipInsertoptions A P (first :: rest) mo junk = some (first' :: rest', P') ∧
    Inserted P P' first rest first' rest' (bytes P.mem (mo.data + 4) (mo.len - 4)) ∧
    ∃ first'' copy' P'', ipStripoptions P' first' (some copy) = some (first'', some copy', P'') ∧
      Restored P P'' first rest first'' rest' ∧
      bytes P''.mem copy.data (mo.len - 4) = bytes P.mem (mo.data + 4) (mo.len - 4)

def Stores (A : Arena) (P : Pool) (first mo : Mbuf) (junk : Int) : Prop :=
  (ipLen P.mem mo.data).toNat + junk ≤ ipMaxpacket ∧
    (first.flags.ext = true ∨ first.data < first.pktdat + (mo.len - 4) →
      (Kmem.kmemMalloc A P.kmem msize).1 ≠ 0)

structure Alike (P : Pool) (first mo : Mbuf) : Prop where
  fields : SameFields P.mem first.data P.mem mo.data
  ipLen : ipLen P.mem mo.data = ipLen P.mem first.data
  dst : (if get32 P.mem mo.data ≠ inaddrNone then get32 P.mem mo.data else ipDst P.mem mo.data) =
    ipDst P.mem first.data

theorem get16_moved {mem mem' : Memory} {a a' : Nat} (same : ∀ i < 2, mem' (a' + i) = mem (a + i)) :
    get16 mem' a' = get16 mem a := by
  have low := same 0 (by decide)
  have high := same 1 (by decide)
  rw [Nat.add_zero, Nat.add_zero] at low
  rw [get16, get16, low, high]

theorem get32_moved {mem mem' : Memory} {a a' : Nat} (same : ∀ i < 4, mem' (a' + i) = mem (a + i)) :
    get32 mem' a' = get32 mem a := by
  have first := same 0 (by decide)
  rw [Nat.add_zero, Nat.add_zero] at first
  rw [get32, get32, load32, load32, first, same 1 (by decide), same 2 (by decide), same 3 (by decide)]

theorem SameFields.of_bytes {mem mem' : Memory} {ip ip' : Nat} (version : ipVer mem' ip' = ipVer mem ip)
    (same : ∀ i < 16, i = 1 ∨ 4 ≤ i → mem' (ip' + i) = mem (ip + i)) : SameFields mem ip mem' ip' := by
  have word : ∀ k, 4 ≤ k → k ≤ 14 → get16 mem' (ip' + k) = get16 mem (ip + k) := by
    intro k least most
    apply get16_moved
    intro i less
    rw [Nat.add_assoc, Nat.add_assoc]
    exact same (k + i) (by omega) (.inr (by omega))
  refine ⟨version, same 1 (by decide) (.inl rfl), word 4 (by decide) (by decide),
    word 6 (by decide) (by decide),
    same 8 (by decide) (.inr (by decide)), same 9 (by decide) (.inr (by decide)),
      word 10 (by decide) (by decide), ?_⟩
  apply get32_moved
  intro i less
  rw [Nat.add_assoc, Nat.add_assoc]
  exact same (12 + i) (by omega) (.inr (by omega))

theorem SameFields.trans {mem mem' mem'' : Memory} {ip ip' ip'' : Nat} (left : SameFields mem ip mem' ip')
    (right : SameFields mem' ip' mem'' ip'') : SameFields mem ip mem'' ip'' :=
  ⟨right.version.trans left.version, right.tos.trans left.tos, right.id.trans left.id,
    right.off.trans left.off,
    right.ttl.trans left.ttl, right.pro.trans left.pro, right.sum.trans left.sum, right.src.trans left.src⟩

theorem SameFields.symm {mem mem' : Memory} {ip ip' : Nat} (same : SameFields mem ip mem' ip') :
    SameFields mem' ip' mem ip :=
  ⟨same.version.symm, same.tos.symm, same.id.symm, same.off.symm, same.ttl.symm, same.pro.symm,
    same.sum.symm, same.src.symm⟩

theorem setIpHlen_nibbles (mem : Memory) (ip : Nat) {v : Nat} (nibble : v < 16) :
    ipVer (setIpHlen mem ip v) ip = ipVer mem ip ∧ ipHlen (setIpHlen mem ip v) ip = v := by
  have byte := (mem ip).toNat_lt
  have held : setIpHlen mem ip v ip = UInt8.ofNat (ipVer mem ip * 16 + v) :=
    @write_inside mem ip 0 [UInt8.ofNat (ipVer mem ip * 16 + v)] Nat.one_pos
  have value : (UInt8.ofNat (ipVer mem ip * 16 + v)).toNat = ipVer mem ip * 16 + v := by
    apply Nat.mod_eq_of_lt
    simp only [ipVer]
    omega
  rw [ipVer, ipHlen, held, value]
  exact ⟨by omega, by omega⟩

theorem setIpHlen_outside {mem : Memory} {ip v x : Nat} (other : x ≠ ip) : setIpHlen mem ip v x = mem x :=
  write_outside (by simp only [List.length_singleton]; omega)

theorem setIpLen_outside {mem : Memory} {ip x : Nat} {v : UInt16} (other : ¬ (ip + 2 ≤ x ∧ x < ip + 4)) :
    setIpLen mem ip v x = mem x :=
  write_outside (by simp only [bytes16, List.length_cons, List.length_nil]; omega)

theorem setIpDst_outside {mem : Memory} {ip x : Nat} {v : UInt32} (other : ¬ (ip + 16 ≤ x ∧ x < ip + 20)) :
    setIpDst mem ip v x = mem x :=
  write_outside (by simp only [bytes32, List.length_cons, List.length_nil]; omega)

theorem setLengths (mem : Memory) (ip : Nat) {v : Nat} (nibble : v < 16) (f : UInt16 → UInt16) :
    let mem' := setIpLen (setIpHlen mem ip v) ip (f (ipLen (setIpHlen mem ip v) ip))
    SameFields mem ip mem' ip ∧ ipDst mem' ip = ipDst mem ip ∧ ipHlen mem' ip = v ∧
      ipLen mem' ip = f (ipLen mem ip) ∧
      ∀ x, ¬ (ip ≤ x ∧ x < ip + 4) → mem' x = mem x := by
  intro mem'
  obtain ⟨version, hlen⟩ := setIpHlen_nibbles mem ip nibble
  have outside : ∀ x, x ≠ ip → ¬ (ip + 2 ≤ x ∧ x < ip + 4) → mem' x = mem x := fun x other away =>
    (setIpLen_outside away).trans (setIpHlen_outside other)
  have start : mem' ip = setIpHlen mem ip v ip := setIpLen_outside (by omega)
  have held : ipLen (setIpHlen mem ip v) ip = ipLen mem ip := get16_congr fun x least most =>
    setIpHlen_outside (by omega)
  refine ⟨.of_bytes ?_ fun i less tail => outside _ (by omega) (by omega), ?_, ?_, ?_, fun x away =>
    outside x (by omega) (by omega)⟩
  · rw [ipVer, start]
    exact version
  · exact get32_congr fun x least most => outside x (by omega) (by omega)
  · rw [ipHlen, start]
    exact hlen
  · rw [← held]
    exact get16_write _ _ _

variable {A : Arena} {P : Pool} {first mo copy : Mbuf} {rest : Chain} {others : List Mbuf}

/-- The mbuf `head` has room for the header and `n` option bytes, and the payload of `first :: rest`
    behind it. -/
structure Roomy (A : Arena) (P P' : Pool) (first : Mbuf) (rest : Chain) (head : Mbuf)
    (rest' : Chain) (others : List Mbuf) (n : Nat) : Prop where
  mem : P'.mem = P.mem
  wf : Wf A P' (head :: (rest' ++ others))
  fits : ∀ e ∈ head :: rest', e.Fit
  plain : head.flags.ext = false
  headed : sizeofIp + n ≤ head.len
  payload : bytes P.mem (head.data + sizeofIp + n) (head.len - sizeofIp - n) ++ flatten P.mem rest' =
    (flatten P.mem (first :: rest)).drop sizeofIp
  total : total (head :: rest') = total (first :: rest) + n
  flagged : head.flags.pkthdr = true
  mpLen : head.pkthdr.mpLen = first.pkthdr.mpLen + n

theorem flatten_behind {mem : Memory} {first : Mbuf} {rest : Chain} {k : Nat} (whole : k ≤ first.len) :
    (flatten mem (first :: rest)).drop k = bytes mem (first.data + k)
    (first.len - k) ++ flatten mem rest := by
  rw [flatten_cons, List.drop_append_of_le_length (by rw [bytes_length]; exact whole), bytes_drop _ whole]

theorem addr_above {m : Mbuf} {live : List Mbuf} (wf : Wf A P live) (member : m ∈ live) : 4096 ≤ m.addr := by
  obtain ⟨pages, fixed, foreign, laid, -⟩ := wf.placed
  obtain ⟨chunks, regions, inv⟩ := laid.kmem
  have held := inv.held (hold m) (List.mem_append_left _ (List.mem_map_of_mem member))
  have above := (inv.bounds _ held.1).1
  have positive := A.positive
  have aligned := A.aligned
  simp only [hold, Kmem.Holding.region, Kmem.pageSize] at above aligned
  omega

/-- The mbuf that `optionRoom` puts in front of a packet, what it leaves of the first one, and the
    first one widened. -/
def inFront (left : Stale) (p : Nat) (first : Mbuf) (n : Nat) : Mbuf :=
  { copyPkthdr (initial left p mtData true) first with
    pkthdr := ⟨first.pkthdr.mpLen + n, left.pkthdr.mpRecvif⟩
    len := sizeofIp + n }

def headless (first : Mbuf) : Mbuf :=
  { first.dropPkthdr with len := first.len - sizeofIp, data := first.data + sizeofIp }

def widened (first : Mbuf) (n : Nat) : Mbuf :=
  { first with
    data := first.data - n
    len := first.len + n
    pkthdr := { first.pkthdr with mpLen := first.pkthdr.mpLen + n } }

theorem headless_fit (fit : first.Fit) (whole : sizeofIp ≤ first.len) : (headless first).Fit := by
  obtain ⟨low, high⟩ := fit
  have wider : (headless first).room.addr ≤ first.room.addr ∧
      first.room.stop ≤ (headless first).room.stop := by
    cases shared : first.flags.ext <;> cases flagged : first.flags.pkthdr <;>
      simp [headless, Mbuf.dropPkthdr, Mbuf.room, shared, flagged, Region.stop, Mbuf.pktdat,
        Mbuf.dat, mhlen, mlen, msize,
        sizeofMHdr, sizeofPkthdr]
  simp only [sizeofIp] at whole
  refine ⟨wider.1.trans (low.trans (Nat.le_add_right _ _)), ?_⟩
  simp only [headless, sizeofIp] at wider ⊢
  omega

theorem wsub_data {live : List Mbuf} {n : Nat} (wf : Wf A P (first :: live)) (fit : first.Fit)
    (flagged : first.flags.pkthdr = true) (short : n ≤ 40) (plain : first.flags.ext = false) :
    first.pktdat ≤ first.data ∧ wsub first.data n = first.data - n := by
  have above := addr_above wf List.mem_cons_self
  have below := wf.room_lt List.mem_cons_self
  obtain ⟨low, high⟩ := fit
  simp only [Mbuf.room, plain, flagged, Bool.false_eq_true, if_false, if_true] at low
  have start : first.pktdat = first.addr + 20 + 8 := rfl
  exact ⟨low, wsub_of_le (by omega) (by omega)⟩

theorem optionRoom_test {live : List Mbuf} {n : Nat} (wf : Wf A P (first :: live)) (fit : first.Fit)
    (flagged : first.flags.pkthdr = true) (short : n ≤ 40) :
    (first.flags.ext = true ∨ wsub first.data n < first.pktdat) ↔ first.flags.ext = true ∨
      first.data < first.pktdat + n := by
  cases plain : first.flags.ext with
  | true => simp
  | false =>
    obtain ⟨low, less⟩ := wsub_data wf fit flagged short plain
    have above := addr_above wf List.mem_cons_self
    have start : first.pktdat = first.addr + 20 + 8 := rfl
    rw [less]
    simp only [Bool.false_eq_true, false_or]
    omega

/-- An mbuf is put in front of the packet. -/
theorem optionRoom_front {n : Nat} (wf : Wf A P (first :: (rest ++ others)))
    (fits : ∀ e ∈ first :: rest, e.Fit) (flagged : first.flags.pkthdr = true)
    (whole : sizeofIp ≤ first.len) (short : n ≤ 40) (small : first.pkthdr.mpLen < 2^31)
    (new : first.flags.ext = true ∨ first.data < first.pktdat + n)
    (granted : (Kmem.kmemMalloc A P.kmem msize).1 ≠ 0) :
    ∃ head rest' P', optionRoom A P first rest n = some (some (head, rest'), P') ∧
      Roomy A P P' first rest head rest' others n := by
  have fit := fits first List.mem_cons_self
  have below := wf.room_lt List.mem_cons_self
  have mpLen : wrap (first.pkthdr.mpLen + n) = first.pkthdr.mpLen + n := wrap_of_lt (by omega)
  have behind := @flatten_behind P.mem first rest sizeofIp whole
  have test := optionRoom_test wf fit flagged short
  rcases wf.take (show mtData < 256 by decide) true with ⟨zero, -⟩ | ⟨p, k, -, -, given, wf'⟩
  · exact absurd zero granted
  have len : wrap (sizeofIp + n) = sizeofIp + n := wrap_of_lt (by simp only [sizeofIp]; omega)
  have cut : wsub first.len sizeofIp = first.len - sizeofIp := wsub_of_le whole (by have := fit.2; omega)
  have start : wrap (first.data + sizeofIp) = first.data + sizeofIp := wrap_of_lt (by have := fit.2; omega)
  have taken : optionRoom A P first rest n =
      some (some (inFront (P.stale p) p first n, headless first :: rest), took P k p mtData) := by
    have returns : mbufGetpktReturns A P mtData = true := by
      rw [mbufGetpktReturns, mbufGetpkt, given]
      rfl
    simp only [optionRoom, if_pos (test.mpr new), returns, not_true_eq_false, if_false,
      mbufGetpkt, given, mpLen, len, cut, start]
    rfl
  have renamed := wf'.adjust_second (show (headless first).addr = first.addr from rfl) rfl rfl fun _ => rfl
  refine ⟨_, _, _, taken, rfl, renamed.adjust rfl rfl rfl (fun shared =>
    absurd shared Bool.false_ne_true), ?_, rfl,
    Nat.le_refl _, ?_, ?_, flagged, rfl⟩
  · intro e member
    rcases List.mem_cons.mp member with rfl | member
    · have bound : sizeofIp + n ≤ mhlen := by
        simp only [sizeofIp, mhlen, mlen, msize, sizeofMHdr, sizeofPkthdr]
        omega
      simp only [Mbuf.Fit, inFront, copyPkthdr, Mbuf.room, Flags.copied, flagged, Region.stop,
        Bool.false_eq_true, if_false, if_true,
        initial, Mbuf.pktdat]
      omega
    · rcases List.mem_cons.mp member with rfl | member
      · exact headless_fit fit whole
      · exact fits e (List.mem_cons_of_mem _ member)
  · have none : (inFront (P.stale p) p first n).len - sizeofIp - n = 0 := by simp only [inFront]; omega
    rw [none, behind, flatten_cons]
    rfl
  · simp only [total_cons, inFront, headless]
    omega

/-- The header is moved down. -/
theorem optionRoom_widened {n : Nat} (wf : Wf A P (first :: (rest ++ others)))
    (fits : ∀ e ∈ first :: rest, e.Fit) (flagged : first.flags.pkthdr = true)
    (whole : sizeofIp ≤ first.len) (short : n ≤ 40) (small : first.pkthdr.mpLen < 2^31)
    (new : ¬ (first.flags.ext = true ∨ first.data < first.pktdat + n)) :
    ∃ head rest' P', optionRoom A P first rest n = some (some (head, rest'), P') ∧
      Roomy A P P' first rest head rest' others n := by
  have fit := fits first List.mem_cons_self
  have below := wf.room_lt List.mem_cons_self
  have mpLen : wrap (first.pkthdr.mpLen + n) = first.pkthdr.mpLen + n := wrap_of_lt (by omega)
  have behind := @flatten_behind P.mem first rest sizeofIp whole
  have test := optionRoom_test wf fit flagged short
  have plain : first.flags.ext = false := by
    cases shared : first.flags.ext with
    | false => rfl
    | true => exact absurd (.inl shared) new
  obtain ⟨low, less⟩ := wsub_data wf fit flagged short plain
  have far : first.pktdat + n ≤ first.data := by
    by_contra close
    exact new (.inr (by omega))
  have room : (widened first n).room = ⟨first.pktdat, mhlen⟩ := by
    simp only [widened, Mbuf.room, plain, flagged, Bool.false_eq_true, if_false, if_true]
    rfl
  have high := fit.2
  have room' : first.room = ⟨first.pktdat, mhlen⟩ := by
    simp only [Mbuf.room, plain, flagged, Bool.false_eq_true, if_false, if_true]
  have len : wrap (first.len + n) = first.len + n := wrap_of_lt (by omega)
  have taken : optionRoom A P first rest n = some (some (widened first n, rest), P) := by
    rw [optionRoom, if_neg (mt test.mp new), less, len, mpLen]
    rfl
  refine ⟨_, _, _, taken, rfl, wf.adjust rfl rfl rfl (fun _ => rfl), ?_, plain, ?_, ?_, ?_, flagged, rfl⟩
  · intro e member
    rcases List.mem_cons.mp member with rfl | member
    · rw [room'] at high
      rw [Mbuf.Fit, room]
      simp only [widened]
      omega
    · exact fits e (List.mem_cons_of_mem _ member)
  · simp only [widened]
    omega
  · have place : (widened first n).data + sizeofIp + n = first.data + sizeofIp := by
      simp only [widened]; omega
    have size : (widened first n).len - sizeofIp - n = first.len - sizeofIp := by simp only [widened]; omega
    rw [place, size, behind]
  · simp only [total_cons, widened]
    omega

theorem optionRoom_given {n : Nat} (wf : Wf A P (first :: (rest ++ others)))
    (fits : ∀ e ∈ first :: rest, e.Fit) (flagged : first.flags.pkthdr = true)
    (whole : sizeofIp ≤ first.len) (short : n ≤ 40) (small : first.pkthdr.mpLen < 2^31)
    (granted : first.flags.ext = true ∨ first.data < first.pktdat + n →
      (Kmem.kmemMalloc A P.kmem msize).1 ≠ 0) :
    ∃ head rest' P', optionRoom A P first rest n = some (some (head, rest'), P') ∧
      Roomy A P P' first rest head rest' others n := by
  by_cases new : first.flags.ext = true ∨ first.data < first.pktdat + n
  · exact optionRoom_front wf fits flagged whole short small new (granted new)
  · exact optionRoom_widened wf fits flagged whole short small new

/-- What `storeOptions` leaves at the data of `head`: the twenty bytes of `mo`, its options, and the
    sums of the lengths. -/
structure Stored (old mem : Memory) (head mo : Mbuf) (n : Nat) : Prop where
  fields : SameFields old mo.data mem head.data
  dst : ipDst mem head.data = if get32 old mo.data ≠ inaddrNone then get32 old mo.data else ipDst old mo.data
  hlen : ipHlen mem head.data = (sizeofIp + n) / 4
  ipLen : ipLen mem head.data = ipLen old mo.data + UInt16.ofNat n
  options : bytes mem (head.data + sizeofIp) n = bytes old (mo.data + 4) n
  outside : ∀ x, ¬ (head.data ≤ x ∧ x < head.data + (sizeofIp + n)) → mem x = old x

theorem storeOptions_given {head : Mbuf} {n : Nat} (fit : head.Fit)
    (headed : sizeofIp + n ≤ head.len) (short : n ≤ 40)
    (apart : ∀ x, mo.data ≤ x → x < mo.data + (4 + n) → ¬ (head.data ≤ x ∧ x < head.data + (sizeofIp + n))) :
    ∃ mem, storeOptions P head mo n = some { P with mem } ∧ Stored P.mem mem head mo n := by
  obtain ⟨low, high⟩ := fit
  simp only [sizeofIp] at headed apart
  let mem₁ := bcopy P.mem mo.data head.data 20
  let mem₂ := bcopy mem₁ (mo.data + 4) (head.data + 20) n
  have first : ∀ x, ¬ (head.data ≤ x ∧ x < head.data + 20) → mem₁ x = P.mem x :=
    fun x away => bcopy_outside away
  have copied : ∀ i < 20, mem₁ (head.data + i) = P.mem (mo.data + i) := by
    intro i less
    show bcopy P.mem mo.data head.data 20 (head.data + i) = _
    rw [bcopy_apply, if_pos (by omega), Nat.add_sub_cancel_left]
  have second : ∀ x, ¬ (head.data + 20 ≤ x ∧ x < head.data + 20 + n) → mem₂ x = mem₁ x :=
    fun x away => bcopy_outside away
  have held : ∀ i < 20, mem₂ (head.data + i) = P.mem (mo.data + i) :=
    fun i less => (second _ (by omega)).trans (copied i less)
  obtain ⟨fields, dst, hlen, ipLen, kept⟩ :=
    setLengths mem₂ head.data (v := (20 + n) / 4) (by omega) (· + UInt16.ofNat n)
  generalize result : setIpLen (setIpHlen mem₂ head.data ((20 + n) / 4)) head.data _ =
    mem₃ at fields dst hlen ipLen kept
  have version : ipVer mem₂ head.data = ipVer P.mem mo.data := by
    rw [ipVer, ipVer]
    exact congrArg (fun byte : UInt8 => byte.toNat / 16) (held 0 (by decide))
  have fields₃ : SameFields P.mem mo.data mem₃ head.data :=
    (SameFields.of_bytes version fun i less _ => held i (by omega)).trans fields
  have dst₃ : ipDst mem₃ head.data = ipDst P.mem mo.data := by
    rw [dst]
    apply get32_moved
    intro i less
    rw [Nat.add_assoc, Nat.add_assoc]
    exact held (16 + i) (by omega)
  have outside : ∀ x, ¬ (head.data ≤ x ∧ x < head.data + (20 + n)) → mem₃ x = P.mem x := fun x away => by
    rw [kept x (by omega), second x (by omega), first x (by omega)]
  have word : get32 mem₃ mo.data = get32 P.mem mo.data :=
    get32_congr fun x least most => outside x (apart x least (by omega))
  have options : bytes mem₃ (head.data + 20) n = bytes P.mem (mo.data + 4) n := by
    have kept' : bytes mem₃ (head.data + 20) n = bytes mem₂ (head.data + 20) n :=
      bytes_congr fun x least most => kept x (by omega)
    rw [kept', bytes_bcopy]
    exact bytes_congr fun x least most => first x fun inside => apart x (by omega) (by omega) (by omega)
  have stores : storeOptions P head mo n =
      some { P with
          mem := if get32 P.mem mo.data ≠ inaddrNone then
              setIpDst mem₃ head.data (get32 P.mem mo.data) else mem₃ } := by
    have header : P.fill head mo.data head.data sizeofIp = some { P with mem := mem₁ } :=
      if_pos (.inr ⟨low, by simp only [sizeofIp]; omega⟩)
    have list : Pool.fill { P with mem := mem₁ } head (mo.data + 4) (head.data + sizeofIp) n =
        some { P with mem := mem₂ } :=
      if_pos (.inr ⟨by omega, by simp only [sizeofIp]; omega⟩)
    simp only [storeOptions, header, list]
    rw [← word, ← result]
    rfl
  by_cases set : get32 P.mem mo.data ≠ inaddrNone
  · rw [if_pos set] at stores
    have aside : ∀ x, ¬ (head.data + 16 ≤ x ∧ x < head.data + 20) →
        setIpDst mem₃ head.data (get32 P.mem mo.data) x = mem₃ x :=
      fun x away => setIpDst_outside away
    have start : setIpDst mem₃ head.data (get32 P.mem mo.data) head.data = mem₃ head.data :=
      aside _ (by omega)
    refine ⟨_, stores, fields₃.trans (.of_bytes ?_ fun i less _ => aside _ (by omega)), ?_, ?_, ?_, ?_, ?_⟩
    · rw [ipVer, start, ← ipVer]
    · rw [if_pos set]
      exact get32_write _ _ _
    · rw [ipHlen, start, ← ipHlen, hlen]
      rfl
    · rw [Inet.ipLen, get16_congr fun x least most => aside x (by omega), ← Inet.ipLen, ipLen]
      congr 1
      apply get16_moved
      intro i less
      rw [Nat.add_assoc, Nat.add_assoc]
      exact held (2 + i) (by omega)
    · rw [← options]
      exact bytes_congr fun x least most => aside x (by simp only [sizeofIp] at least; omega)
    · intro x away
      simp only [sizeofIp] at away
      rw [aside x (by omega), outside x away]
  · rw [if_neg set] at stores
    refine ⟨_, stores, fields₃, ?_, hlen, ?_, options, outside⟩
    · rw [if_neg set, dst₃]
    · rw [ipLen]
      congr 1
      apply get16_moved
      intro i less
      rw [Nat.add_assoc, Nat.add_assoc]
      exact held (2 + i) (by omega)

/-- What `ip_stripoptions` leaves of a packet with `n` option bytes, and in `copy`. -/
structure Bared (old mem : Memory) (m copy : Mbuf) (n : Nat) : Prop where
  fields : SameFields old m.data mem m.data
  dst : ipDst mem m.data = ipDst old m.data
  hlen : ipHlen mem m.data = sizeofIp / 4
  ipLen : ipLen mem m.data = ipLen old m.data - UInt16.ofNat n
  payload : bytes mem (m.data + sizeofIp) (m.len - sizeofIp - n) =
    bytes old (m.data + sizeofIp + n) (m.len - sizeofIp - n)
  options : bytes mem copy.data n = bytes old (m.data + sizeofIp) n
  outside : ∀ x, ¬ (m.data ≤ x ∧ x < m.data + m.len) → ¬ (copy.data ≤ x ∧ x < copy.data + n) → mem x = old x

theorem ipStripoptions_given {m : Mbuf} {n : Nat} (fit : m.Fit) (below : m.room.stop < 2^32)
    (some_options : 0 < n) (optioned : ipHlen P.mem m.data * 4 = sizeofIp + n)
    (whole : sizeofIp + n ≤ m.len) (flagged : m.flags.pkthdr = true) (counted : n ≤ m.pkthdr.mpLen)
    (small : m.pkthdr.mpLen < 2^32) (low : copy.room.addr ≤ copy.data)
    (high : copy.data + n ≤ copy.room.stop)
    (apart : ∀ x, copy.data ≤ x → x < copy.data + n → ¬ (m.data ≤ x ∧ x < m.data + m.len)) :
    ∃ mem, ipStripoptions P m (some copy) =
        some ({ m with len := m.len - n, pkthdr := { m.pkthdr with mpLen := m.pkthdr.mpLen - n } },
          some { copy with len := n },
          { P with mem }) ∧ Bared P.mem mem m copy n := by
  obtain ⟨start, stop⟩ := fit
  let mem₁ := bcopy P.mem (m.data + sizeofIp) copy.data n
  let mem₂ := bcopy mem₁ (m.data + sizeofIp + n) (m.data + sizeofIp) (m.len - (sizeofIp + n))
  have first : ∀ x, ¬ (copy.data ≤ x ∧ x < copy.data + n) → mem₁ x = P.mem x :=
    fun x away => bcopy_outside away
  have packet : ∀ x, m.data ≤ x → x < m.data + m.len → mem₁ x = P.mem x := fun x least most =>
    first x fun inside => apart x inside.1 inside.2 ⟨least, most⟩
  have second : ∀ x, ¬ (m.data + sizeofIp ≤ x ∧ x < m.data + (m.len - n)) → mem₂ x = mem₁ x := fun x away =>
    bcopy_outside (by omega)
  have header : ∀ x, m.data ≤ x → x < m.data + sizeofIp → mem₂ x = P.mem x := fun x least most =>
    (second x (by omega)).trans (packet x least (by omega))
  obtain ⟨fields, dst, hlen, length, kept⟩ :=
    setLengths mem₂ m.data (show sizeofIp / 4 < 16 by decide) (· - UInt16.ofNat n)
  have strips : ipStripoptions P m (some copy) =
      some ({ m with len := m.len - n, pkthdr := { m.pkthdr with mpLen := m.pkthdr.mpLen - n } },
        some { copy with len := n },
        { P with
          mem := setIpLen (setIpHlen mem₂ m.data (sizeofIp / 4)) m.data
            (ipLen (setIpHlen mem₂ m.data (sizeofIp / 4)) m.data - UInt16.ofNat n) }) := by
    have more : ¬ sizeofIp + n ≤ sizeofIp := by omega
    have count : sizeofIp + n - sizeofIp = n := Nat.add_sub_cancel_left ..
    have fills : P.fill copy (m.data + sizeofIp) copy.data n = some { P with mem := mem₁ } :=
      if_pos (.inr ⟨low, high⟩)
    have rest : wsub m.len (sizeofIp + n) = m.len - (sizeofIp + n) := wsub_of_le whole (by omega)
    have moves : Pool.fill { P with mem := mem₁ } m (m.data + sizeofIp + n) (m.data + sizeofIp)
      (m.len - (sizeofIp + n)) =
        some { P with mem := mem₂ } := if_pos (.inr ⟨by omega, by omega⟩)
    have less : wsub m.len n = m.len - n := wsub_of_le (by omega) (by omega)
    have fewer : wsub m.pkthdr.mpLen n = m.pkthdr.mpLen - n := wsub_of_le counted small
    simp only [ipStripoptions, optioned, if_neg more, count, fills, rest, moves, less, flagged,
      if_true, fewer, Option.map_some]
  generalize setIpLen (setIpHlen mem₂ m.data (sizeofIp / 4)) m.data _ = mem₃ at *
  simp only [sizeofIp] at *
  have version : ipVer mem₂ m.data = ipVer P.mem m.data := by
    rw [ipVer, header _ (by omega) (by omega), ← ipVer]
  refine ⟨mem₃, strips, (SameFields.of_bytes version fun i less _ =>
    header _ (by omega) (by omega)).trans fields, ?_, hlen, ?_, ?_,
    ?_, ?_⟩
  · rw [dst]
    exact get32_congr fun x least most => header x (by omega) (by omega)
  · rw [length]
    congr 1
    exact get16_congr fun x least most => header x (by omega) (by omega)
  · have behind : bytes mem₃ (m.data + 20) (m.len - 20 - n) = bytes mem₂ (m.data + 20) (m.len - 20 - n) :=
      bytes_congr fun x least most => kept x (by omega)
    have size : m.len - 20 - n = m.len - (20 + n) := by omega
    have moved : bytes mem₂ (m.data + 20) (m.len - (20 + n)) =
      bytes mem₁ (m.data + 20 + n) (m.len - (20 + n)) := bytes_bcopy _ _ _ _
    simp only [sizeofIp]
    rw [behind, size, moved]
    exact bytes_congr fun x least most => packet x (by omega) (by omega)
  · have aside : bytes mem₃ copy.data n = bytes mem₁ copy.data n := by
      apply bytes_congr
      intro x least most
      have away := apart x least most
      rw [kept x (by omega), second x (by omega)]
    rw [aside]
    exact bytes_bcopy _ _ _ _
  · intro x away away'
    rw [kept x (by omega), second x (by omega), first x away']

theorem flatten_rest_eq {mem mem' : Memory} {rest : Chain}
    (same : ∀ e ∈ rest, ∀ x, e.data ≤ x → x < e.data + e.len → mem' x = mem x) :
    flatten mem' rest = flatten mem rest :=
  List.flatMap_congr fun e member => bytes_congr fun x least most => same e member x least most

theorem option_sum (a b : UInt16) {n : Nat} (short : n ≤ 40) :
    (a + UInt16.ofNat n).toNat = b.toNat + n ↔ a = b ∧ b.toNat + n ≤ ipMaxpacket := by
  have left := a.toNat_lt
  have right := b.toNat_lt
  rw [UInt16.toNat_add, UInt16.toNat_ofNat', ← UInt16.toNat_inj, ipMaxpacket]
  omega

section

variable (wf : Wf A P (first :: (rest ++ copy :: mo :: others))) (fits : ∀ e ∈ first :: rest, e.Fit)
  (flagged : first.flags.pkthdr = true) (whole : sizeofIp ≤ first.len) (small : first.pkthdr.mpLen < 2^31)
  (bare : ipHlen P.mem first.data * 4 = sizeofIp) (list : 4 ≤ mo.len ∧ mo.len ≤ 44 ∧ mo.len % 4 = 0)
    (moFit : mo.Fit)
  (plain : copy.flags.ext = false) (low : copy.room.addr ≤ copy.data)
    (high : copy.data + 40 ≤ copy.room.stop) (junk : Int)

include wf fits flagged whole small bare list moFit plain low high

theorem inverse_stored (stores : Stores A P first mo junk) :
    Inverse A P first rest mo junk copy ↔
      Alike P first mo ∧ (ipLen P.mem first.data).toNat + (mo.len - 4) ≤ ipMaxpacket := by
  obtain ⟨least, most, words⟩ := list
  have optlen : wsub mo.len 4 = mo.len - 4 := wsub_of_le least (by omega)
  generalize count : mo.len - 4 = n at *
  obtain ⟨head, rest', P₁, taken, roomy⟩ := optionRoom_given wf fits flagged whole (n := n) (by omega) small
    fun new => stores.2 (by rwa [count])
  have headFit := roomy.fits head List.mem_cons_self
  have moMember : mo ∈ rest' ++ copy :: mo :: others := by simp
  have apart := roomy.wf.rooms_apart roomy.plain moMember
  have below := roomy.wf.room_lt List.mem_cons_self
  have headed := roomy.headed
  obtain ⟨mem, puts, stored⟩ := @storeOptions_given P₁ mo head n headFit headed (by omega) (by
    intro x above behind
    simp only [Region.Apart, Mbuf.Fit] at apart headFit moFit
    omega)
  rw [roomy.mem] at stored
  have inserts : ipInsertoptions A P (first :: rest) mo junk = some (head :: rest', { P₁ with mem }) := by
    have passes : ¬ ((ipLen P.mem mo.data).toNat + junk > ipMaxpacket) := by
      have := stores.1
      omega
    simp only [ipInsertoptions, if_neg passes, optlen, taken, puts]
  have size : (bytes P.mem (mo.data + 4) n).length = n := bytes_length _ _ _
  have aside : flatten mem rest' = flatten P.mem rest' := by
    apply flatten_rest_eq
    intro e member x above behind
    have fit := roomy.fits e (List.mem_cons_of_mem _ member)
    have away := roomy.wf.rooms_apart roomy.plain (List.mem_append_left _ member)
    apply stored.outside
    simp only [Region.Apart, Mbuf.Fit] at away fit headFit
    omega
  have payload : (flatten mem (head :: rest')).drop (sizeofIp + n) =
      (flatten P.mem (first :: rest)).drop sizeofIp := by
    rw [flatten_behind headed, aside, ← roomy.payload, Nat.sub_sub, Nat.add_assoc]
    congr 1
    exact bytes_congr fun x above behind => stored.outside x (by omega)
  have exact : Inserted P { P₁ with mem } first rest head rest' (bytes P.mem (mo.data + 4) n) ↔
      Alike P first mo ∧ (ipLen P.mem first.data).toNat + n ≤ ipMaxpacket := by
    constructor
    · intro inserted
      have sum := inserted.ipLen
      simp only [stored.ipLen, size] at sum
      obtain ⟨same, fitting⟩ := (option_sum _ _ (by omega)).mp sum
      exact ⟨⟨inserted.fields.trans stored.fields.symm, same, stored.dst.symm.trans inserted.dst⟩, fitting⟩
    · rintro ⟨alike, fitting⟩
      refine ⟨alike.fields.trans stored.fields, stored.dst.trans alike.dst, ?_, ?_, ?_, ?_, ?_, ?_,
        roomy.flagged, ?_⟩
      · rw [size, bare, stored.hlen]
        simp only [sizeofIp]
        omega
      · rw [size, stored.ipLen]
        exact (option_sum _ _ (by omega)).mpr ⟨alike.ipLen, fitting⟩
      · rw [size]
        exact stored.options
      · rw [size]
        exact payload
      · rw [size]
        exact headed
      · rw [size]
        exact roomy.total
      · rw [size]
        exact roomy.mpLen
  rw [← exact]
  constructor
  · rintro ⟨first', rest'', P', inserts', inserted, -⟩
    rw [inserts] at inserts'
    cases inserts'
    rwa [count] at inserted
  · intro inserted
    refine ⟨head, rest', _, inserts, by rwa [count], ?_⟩
    have hlen := inserted.hlen
    have length := inserted.ipLen
    have total := inserted.total
    have mpLen := inserted.mpLen
    rw [size] at hlen length total mpLen
    simp only [bare] at hlen
    by_cases none : n = 0
    · subst none
      have bare' : ipHlen mem head.data * 4 ≤ sizeofIp := by omega
      refine ⟨head, copy, { P₁ with mem }, by
        simp only [ipStripoptions, if_pos bare'], ?_, by rw [count]; rfl⟩
      exact ⟨inserted.fields, inserted.dst, by
        simp only; omega, UInt16.toNat_inj.mp length, payload, total, mpLen⟩
    · -- the options are taken out of the packet that has just been built
      have swapped : (head :: (rest' ++ copy :: mo :: others)).Perm
          (copy :: (head :: rest' ++ mo :: others)) :=
        @List.perm_middle _ copy (head :: rest') (mo :: others)
      have wfCopy := roomy.wf.perm swapped
      have away : ∀ e ∈ head :: rest', ∀ x, e.data ≤ x → x < e.data + e.len →
          ¬ (copy.data ≤ x ∧ x < copy.data + n) := by
        intro e member x above behind
        have fit := roomy.fits e member
        have apart := wfCopy.rooms_apart plain (List.mem_append_left _ member)
        simp only [Region.Apart, Mbuf.Fit, Region.stop] at apart fit high
        omega
      obtain ⟨mem', strips, bared⟩ := @ipStripoptions_given { P₁ with mem }
        copy head n headFit below (by omega) hlen headed roomy.flagged
        (by omega) (by omega) low (by omega) (fun x above behind inside =>
          away head List.mem_cons_self x inside.1 inside.2 ⟨above, behind⟩)
      refine ⟨_, _, _, strips, ?_, ?_⟩
      · have behind : flatten mem' rest' = flatten mem rest' := by
          apply flatten_rest_eq
          intro e member x above behind
          have fit := roomy.fits e (List.mem_cons_of_mem _ member)
          have apart := roomy.wf.rooms_apart roomy.plain (List.mem_append_left _ member)
          apply bared.outside x _ (away e (List.mem_cons_of_mem _ member) x above behind)
          simp only [Region.Apart, Mbuf.Fit] at apart fit headFit
          omega
        refine ⟨inserted.fields.trans bared.fields, bared.dst.trans inserted.dst, ?_, ?_, ?_, ?_, ?_⟩
        · have held : ipHlen mem' head.data = 5 := bared.hlen
          show ipHlen mem' head.data = ipHlen P.mem first.data
          simp only [sizeofIp] at bare
          omega
        · have held := bared.ipLen
          simp only at held length
          rw [held, ← UInt16.toNat_inj, UInt16.toNat_sub, length, UInt16.toNat_ofNat']
          have bound := (ipLen P.mem first.data).toNat_lt
          omega
        · have shorter : head.len - n - sizeofIp = head.len - sizeofIp - n := by omega
          have moved : bytes mem' (head.data + sizeofIp) (head.len - n - sizeofIp) =
              bytes mem (head.data + (sizeofIp + n)) (head.len - (sizeofIp + n)) := by
            rw [shorter, ← Nat.add_assoc, ← Nat.sub_sub]
            exact bared.payload
          rw [← payload, flatten_behind (by simp only; omega), flatten_behind headed]
          exact congrArg₂ (· ++ ·) moved behind
        · rw [total_cons] at total ⊢
          simp only
          omega
        · simp only
          omega
      · rw [count]
        exact bared.options.trans stored.options

omit wf fits small moFit plain low high in
theorem inverse_left (long : ¬ (ipLen P.mem mo.data).toNat + junk ≤ ipMaxpacket) :
    Inverse A P first rest mo junk copy ↔ mo.len = 4 := by
  have stays : ipInsertoptions A P (first :: rest) mo junk = some (first :: rest, P) :=
    if_pos (Int.not_le.mp long)
  constructor
  · rintro ⟨first', rest', P', inserts, inserted, -⟩
    rw [stays] at inserts
    cases inserts
    have hlen := inserted.hlen
    rw [bytes_length] at hlen
    omega
  · intro none
    have empty : bytes P.mem (mo.data + 4) (mo.len - 4) = [] := by rw [none]; rfl
    have same : SameFields P.mem first.data P.mem first.data := ⟨rfl, rfl, rfl, rfl, rfl, rfl, rfl, rfl⟩
    refine ⟨first, rest, P, stays, ?_, first, copy, P, ?_, ?_, ?_⟩
    · rw [empty]
      exact ⟨same, rfl, rfl, rfl, rfl, rfl, whole, rfl, flagged, rfl⟩
    · have bare' : ipHlen P.mem first.data * 4 ≤ sizeofIp := by omega
      simp only [ipStripoptions, if_pos bare']
    · exact ⟨same, rfl, rfl, rfl, rfl, rfl, rfl⟩
    · rw [empty, none]
      rfl

omit whole small bare moFit plain low high in
theorem inverse_never (passes : (ipLen P.mem mo.data).toNat + junk ≤ ipMaxpacket)
    (needed : first.flags.ext = true ∨ first.data < first.pktdat + (mo.len - 4))
    (failed : (Kmem.kmemMalloc A P.kmem msize).1 = 0) :
    ¬ Inverse A P first rest mo junk copy := by
  have optlen : wsub mo.len 4 = mo.len - 4 := wsub_of_le list.1 (by omega)
  have test := (optionRoom_test wf (fits first List.mem_cons_self) flagged (n := mo.len - 4)
    (by omega)).mpr needed
  rcases wf.take (show mtData < 256 by decide) true with ⟨-, none⟩ | ⟨p, k, given, nonzero, -, -⟩
  · have stuck : mbufGetpktReturns A P mtData = false := by
      rw [mbufGetpktReturns, mbufGetpkt, none]
      rfl
    rintro ⟨first', rest', P', inserts, -⟩
    simp only [ipInsertoptions, if_neg (not_lt.mpr passes), optlen, optionRoom, if_pos test, stuck,
      Bool.false_eq_true,
      not_false_eq_true, if_true] at inserts
    cases inserts
  · rw [given] at failed
    exact absurd failed nonzero

/-- Options go into a packet and out of it again as they should exactly when the first test fails
    and there are none, or when the header is stored, the twenty bytes at the data of `mo` are those
    of the packet's own header, and the lengths add up. -/
theorem options_inverse_iff :
    Inverse A P first rest mo junk copy ↔
      (Stores A P first mo junk ∧ Alike P first mo ∧ (ipLen P.mem first.data).toNat + (mo.len - 4) ≤
        ipMaxpacket) ∨
        (ipMaxpacket < (ipLen P.mem mo.data).toNat + junk ∧ mo.len = 4) := by
  by_cases stores : Stores A P first mo junk
  · rw [inverse_stored wf fits flagged whole small bare list moFit plain low high junk stores]
    have passes := stores.1
    simp only [stores, true_and, not_lt.mpr passes, false_and, or_false]
  · simp only [stores, false_and, false_or]
    by_cases long : (ipLen P.mem mo.data).toNat + junk ≤ ipMaxpacket
    · obtain ⟨needed, failed⟩ := Classical.not_imp.mp fun granted => stores ⟨long, granted⟩
      have never : ¬ Inverse A P first rest mo junk copy :=
        inverse_never wf fits flagged list junk long needed (not_not.mp failed)
      exact iff_of_false never fun both => absurd long (not_le.mpr both.1)
    · rw [inverse_left flagged whole bare list junk long]
      simp only [Int.not_le.mp long, true_and]

end

abbrev listGet : Option Mbuf × Pool := mbufTake Kmem.board pktGet.2 mtSoopts false
abbrev copyGet : Option Mbuf × Pool := mbufTake Kmem.board listGet.2 mtData false
abbrev plainPacket : Mbuf :=
  { mbufOf pktGet with data := (mbufOf pktGet).data + 60, len := 28, pkthdr := ⟨28, 0⟩ }
abbrev listed (len : Nat) : Mbuf := { mbufOf listGet with len := len }
abbrev copyMbuf : Mbuf := mbufOf copyGet
abbrev plainHeader : List UInt8 :=
  [0x45, 0] ++ bytes16 28 ++ [0, 0, 0, 0, 64, 17, 0, 0] ++ bytes32 (htonl 0xc0a80109) ++
    bytes32 (htonl 0xc0a80105) ++
    [0, 53, 0, 53, 0, 8, 0, 0]
abbrev plainPool : Pool :=
  { copyGet.2 with
    mem := write (write copyGet.2.mem plainPacket.data plainHeader) (mbufOf listGet).data
      [0, 0, 0, 0, 1, 1, 1, 1] }

theorem room_len (m : Mbuf) (len : Nat) : ({ m with len } : Mbuf).room = m.room := rfl

/-- Both mbufs are given, the bytes that are written lie in them, and what the packet and the
    options are found to be. -/
theorem plain_answers :
    (listGet.1.isSome = true ∧ copyGet.1.isSome = true) ∧
    ((plainPacket.room.addr ≤ plainPacket.data ∧ plainPacket.data + 28 ≤ plainPacket.room.stop) ∧
      (mbufOf listGet).room.addr ≤ (mbufOf listGet).data ∧
        (mbufOf listGet).data + 44 ≤ (mbufOf listGet).room.stop) ∧
    (copyMbuf.flags.ext = false ∧ copyMbuf.room.addr ≤ copyMbuf.data ∧
      copyMbuf.data + 40 ≤ copyMbuf.room.stop) ∧
    ipHlen plainPool.mem plainPacket.data * 4 = sizeofIp ∧ ipLen plainPool.mem (mbufOf listGet).data = 0 ∧
    ipVer plainPool.mem (mbufOf listGet).data ≠ ipVer plainPool.mem plainPacket.data ∧
    ¬ (plainPacket.flags.ext = true ∨ plainPacket.data < plainPacket.pktdat + 4) := by
  decide +kernel

theorem plain_wf (len : Nat) :
    Wf Kmem.board plainPool (plainPacket :: ([] ++ copyMbuf :: listed len :: [])) := by
  obtain ⟨⟨given, given'⟩, ⟨packetRoom, listRoom⟩, -⟩ := plain_answers
  have edit := @Reachable.edit_head _ _ _ _ _ plainPacket pktGet_reachable rfl rfl rfl rfl
  have second := edit.get (get_eq given)
  have edit' := @Reachable.edit_head _ _ _ _ _ (listed len) second rfl rfl rfl rfl
  have third := edit'.get (get_eq given')
  have ordered := third.order (@List.perm_append_comm _ [copyMbuf, listed len] [plainPacket])
  -- for any pool, so that nothing of this one is computed
  have stored : ∀ Q : Pool, Reachable Kmem.board Within16M Q ([plainPacket] ++ [copyMbuf, listed len]) →
      Wf Kmem.board { Q with
        mem := write (write Q.mem plainPacket.data plainHeader) (mbufOf listGet).data
          [0, 0, 0, 0, 1, 1, 1, 1] }
        ([plainPacket] ++ [copyMbuf, listed len]) := by
    intro Q run
    have packet := @Reachable.write _ _ _ _ plainPacket (write Q.mem plainPacket.data plainHeader)
      run (by simp) (by
      intro x outside
      apply write_outside
      obtain ⟨low, high⟩ := packetRoom
      have size : plainHeader.length = 28 := rfl
      omega)
    refine (@Reachable.write _ _ _ _ (listed len) _ packet (by simp) ?_).wf
    intro x outside
    apply write_outside
    obtain ⟨low, high⟩ := listRoom
    have room : (listed len).room = (mbufOf listGet).room := room_len _ _
    rw [room] at outside
    simp only [List.length_cons, List.length_nil]
    omega
  exact stored copyGet.2 ordered

theorem plain_fits : ∀ e ∈ [plainPacket], e.Fit := by
  rw [List.forall_mem_singleton]
  exact plain_answers.2.1.1

theorem listed_fit {len : Nat} (short : len ≤ 44) : (listed len).Fit := by
  obtain ⟨low, high⟩ := plain_answers.2.1.2
  have room : (listed len).room = (mbufOf listGet).room := room_len _ _
  rw [Mbuf.Fit, room]
  simp only
  omega

theorem nothing_inserted : Inverse Kmem.board plainPool plainPacket [] (listed 4) 65536 copyMbuf := by
  obtain ⟨-, -, ⟨plain, low, high⟩, twenty, noLength, -⟩ := plain_answers
  have long : ipMaxpacket < (ipLen plainPool.mem (listed 4).data).toNat + (65536 : Int) := by
    rw [noLength]
    decide
  exact (@options_inverse_iff Kmem.board plainPool plainPacket (listed 4) copyMbuf [] []
    (plain_wf 4) plain_fits rfl (by decide)
    (by decide) twenty (by decide) (listed_fit (by decide)) plain low high 65536).mpr (.inr ⟨long, rfl⟩)

/-- Four option bytes behind an address that is not set: the version of the packet is lost. -/
theorem header_overwritten : ¬ Inverse Kmem.board plainPool plainPacket [] (listed 8) 0 copyMbuf := by
  obtain ⟨-, -, ⟨plain, low, high⟩, twenty, noLength, version, inside⟩ := plain_answers
  have stores : Stores Kmem.board plainPool plainPacket (listed 8) 0 := by
    refine ⟨?_, fun new => absurd new inside⟩
    rw [noLength]
    decide
  rw [@inverse_stored Kmem.board plainPool plainPacket (listed 8) copyMbuf [] [] (plain_wf 8)
    plain_fits rfl (by decide) (by decide)
    twenty (by decide) (listed_fit (by decide)) plain low high 0 stores]
  rintro ⟨alike, -⟩
  exact absurd alike.fields.version version

end Embryo.Inet
