import Embryo.Net.Model
import Embryo.Uipc.Exhausted

namespace Embryo.Drivers

open Embryo.Machine Embryo.Net Embryo.Uipc
open Embryo.Kmem (Arena)

def ethFcsLen : Nat := 4
def ethFrameLen : Nat := 1518
def ipAlignLen : Nat := 2

structure RxDesc where
  errorSummary : Bool
  frameLength : BitVec 14
  firstDescriptor : Bool
  lastDescriptor : Bool

def RxDesc.frameLen (d : RxDesc) : Nat := d.frameLength.toNat

def readRxStatus (d : RxDesc) : Int := if d.errorSummary then -1 else 0

def stmmacRxStatus (d : RxDesc) : Int :=
  if readRxStatus d ≠ 0 then readRxStatus d
  else
    let ret := if d.frameLen > ethFrameLen then -1 else 0
    if ¬ d.firstDescriptor ∧ ¬ d.lastDescriptor then -1 else ret

def stmmacGetmbuf (A : Arena) (P : Pool) : Option (Option Mbuf × Pool) :=
  match mbufGetpkt A P mtData with
  | (none, P) => some (none, P)
  | (some m, P) =>
    match mbufGetext A P m with
    | none => none
    | some (code, m, P) =>
      if code ≠ 0 then (mbufFreem A P [m]).map fun P => (none, P)
      else some (some { m with data := m.data + ipAlignLen }, P)

structure Ifqueue where
  packets : List Mbuf
  maxlen : Nat
  drops : Nat

def Ifqueue.isFull (q : Ifqueue) : Prop := q.packets.length ≥ q.maxlen

instance (q : Ifqueue) : Decidable q.isFull := inferInstanceAs (Decidable (_ ≥ _))

inductive Proto where
  | ip
  | arp
deriving DecidableEq

structure EtherDev where
  ethAddr : Mac
  promisc : Bool
  noarp : Bool

structure Input where
  pool : Pool
  ifq : Proto → Ifqueue
  ibytes : Nat
  ipackets : Nat
  ierrors : Nat

def Input.drop (S : Input) (A : Arena) (m : Mbuf) : Option (Option Mbuf × Input) :=
  (mbufFreem A S.pool [m]).map fun pool => (none, { S with pool })

def etherSwitch (E : EtherDev) (pro : UInt16) : Option Proto :=
  if pro = ethertypeIp then some .ip
  else if pro = ethertypeArp then if E.noarp then none else some .arp
  else none

def etherStrip (m : Mbuf) (dst : Mac) : Mbuf :=
  { m with
    data := m.data + sizeofEtherHdr
    len := wsub m.len sizeofEtherHdr
    pkthdr := { m.pkthdr with mpLen := wsub m.pkthdr.mpLen sizeofEtherHdr }
    flags := { m.flags with
      bcast := m.flags.bcast || (dst[0] &&& 1 ≠ 0 && dst = etherBroadaddr)
      mcast := m.flags.mcast || (dst[0] &&& 1 ≠ 0 && dst ≠ etherBroadaddr) } }

def etherInput (A : Arena) (E : EtherDev) (S : Input) (m : Mbuf) : Option (Option Mbuf × Input) :=
  let dst := macAt S.pool.mem m.data
  let pro := swap16 (get16 S.pool.mem (m.data + 12))
  let S := { S with ibytes := wrap (S.ibytes + m.pkthdr.mpLen) }
  let m := etherStrip m dst
  if ¬ (m.flags.bcast || m.flags.mcast) ∧ ¬ E.promisc ∧ E.ethAddr ≠ dst then S.drop A m
  else
    match etherSwitch E pro with
    | none => S.drop A m
    | some proto =>
      let q := S.ifq proto
      if q.isFull then { S with ifq := Function.update S.ifq proto { q with drops := q.drops + 1 } }.drop A m
      else some (some m, { S with ifq := Function.update S.ifq proto { q with packets := q.packets ++ [m] } })

def flen (d : RxDesc) : Nat := wsub d.frameLen ethFcsLen

def received (d : RxDesc) (recvif : Nat) (m : Mbuf) : Mbuf :=
  { m with len := flen d, pkthdr := ⟨flen d, recvif⟩ }

/-- A pass of the loop of `stmmac_rx`: the mbuf given to `ether_input` and the one queued. A copy to
    beyond the buffer of the mbuf has no result. -/
def rxPass (A : Arena) (E : EtherDev) (recvif : Nat) (S : Input) (d : RxDesc) (bufRx : Nat) :
    Option (Option (Mbuf × Option Mbuf) × Input) :=
  if stmmacRxStatus d = 0 then
    match stmmacGetmbuf A S.pool with
    | none => none
    | some (none, pool) => some (none, { S with pool, ierrors := wrap (S.ierrors + 1) })
    | some (some m, pool) =>
      match pool.fill m bufRx m.data (flen d) with
      | none => none
      | some pool =>
        let m := received d recvif m
        match etherInput A E { S with pool, ipackets := wrap (S.ipackets + 1) } m with
        | none => none
        | some (queued, S) => some (some (m, queued), S)
  else some (none, { S with ierrors := wrap (S.ierrors + 1) })

def Dropped (E : EtherDev) (ifq : Proto → Ifqueue) (mem : Memory) (m : Mbuf) : Prop :=
  let flags := (etherStrip m (macAt mem m.data)).flags
  ¬ (flags.bcast || flags.mcast) ∧ ¬ E.promisc ∧ E.ethAddr ≠ macAt mem m.data ∨
    ∀ proto, etherSwitch E (swap16 (get16 mem (m.data + 12))) = some proto → (ifq proto).isFull

def Holds (m : Mbuf) (n : Int) : Prop := (m.len : Int) = n ∧ (m.pkthdr.mpLen : Int) = n

/-- A frame that is accepted fits the cluster, and has the lengths it should have on both its ways. -/
def Safe (A : Arena) (E : EtherDev) (recvif : Nat) (S : Input) (d : RxDesc) (bufRx : Nat) : Prop :=
  stmmacRxStatus d = 0 → ∀ m pool, stmmacGetmbuf A S.pool = some (some m, pool) →
    (m.ext.meBuf ≤ m.data ∧ m.data + flen d ≤ m.ext.meBuf + m.ext.meSize) ∧
    ∀ given queued S', rxPass A E recvif S d bufRx = some (some (given, queued), S') →
      Holds given (d.frameLen - 4) ∧ ∀ q ∈ queued, Holds q (d.frameLen - 18)

variable {A : Arena} {E : EtherDev} {recvif bufRx : Nat} {S S' : Input} {d : RxDesc} {m : Mbuf} {pool : Pool}

theorem accepted_short (accepted : stmmacRxStatus d = 0) : d.frameLen ≤ 1518 := by
  rw [stmmacRxStatus] at accepted
  split at accepted
  case isTrue error => exact absurd accepted error
  case isFalse =>
    dsimp only at accepted
    split at accepted
    · cases accepted
    · split at accepted
      · cases accepted
      · rename_i short
        exact Nat.le_of_not_lt short

theorem mbufGetext_extended {P P' : Pool} {m' : Mbuf} (plain : m.flags.ext = false)
    (given : mbufGetext A P m = some (0, m', P')) : ∃ buf, m' = m.extend buf := by
  rw [mbufGetext] at given
  split at given
  · cases given
  · rename_i cluster P'' _
    dsimp only at given
    split at given
    · cases given
      exact ⟨_, rfl⟩
    · simp only [plain, Bool.false_eq_true, if_false] at given
      cases given

theorem getmbuf_room {P P' : Pool} (given : stmmacGetmbuf A P = some (some m, P')) :
    m.flags.ext = true ∧ m.data = m.ext.meBuf + ipAlignLen ∧ m.ext.meSize = mclBytes := by
  rw [stmmacGetmbuf] at given
  split at given
  · cases given
  · rename_i first Q taken
    have plain := (mbufTake_fresh taken).1
    split at given
    · cases given
    · rename_i code m' Q' extended
      split at given
      · rw [Option.map_eq_some_iff] at given
        obtain ⟨_, _, same⟩ := given
        cases same
      · rename_i zero
        rw [not_not.mp zero] at extended
        obtain ⟨buf, rfl⟩ := mbufGetext_extended plain extended
        cases given
        exact ⟨rfl, rfl, rfl⟩

theorem drop_none {q : Mbuf} : S.drop A m ≠ some (some q, S') := by
  intro dropped
  rw [Input.drop, Option.map_eq_some_iff] at dropped
  obtain ⟨_, _, same⟩ := dropped
  cases same

theorem etherInput_queued {q : Mbuf} (queued : etherInput A E S m = some (some q, S')) :
    q = etherStrip m (macAt S.pool.mem m.data) ∧ ¬ Dropped E S.ifq S.pool.mem m := by
  rw [etherInput] at queued
  dsimp only at queued
  split at queued
  · exact absurd queued drop_none
  · rename_i wanted
    split at queued
    · exact absurd queued drop_none
    · rename_i proto switched
      split at queued
      · exact absurd queued drop_none
      · rename_i room
        cases queued
        refine ⟨rfl, ?_⟩
        rintro (unwanted | full)
        · exact wanted unwanted
        · exact room (full proto switched)

theorem etherInput_queues (kept : ¬ Dropped E S.ifq S.pool.mem m) :
    ∃ q S', etherInput A E S m = some (some q, S') := by
  simp only [Dropped, not_or, not_forall] at kept
  obtain ⟨wanted, proto, switched, room⟩ := kept
  rw [etherInput]
  dsimp only
  rw [if_neg wanted, switched]
  dsimp only
  rw [if_neg room]
  exact ⟨_, _, rfl⟩

def Input.copied (S : Input) (pool : Pool) (bufRx : Nat) (m : Mbuf) (d : RxDesc) : Input :=
  { S with
    pool := { pool with mem := bcopy pool.mem bufRx m.data (flen d) }
    ipackets := wrap (S.ipackets + 1) }

theorem rxPass_copied (accepted : stmmacRxStatus d = 0) (taken : stmmacGetmbuf A S.pool = some (some m, pool))
    (fits : flen d + ipAlignLen ≤ mclBytes) : rxPass A E recvif S d bufRx =
      match etherInput A E (S.copied pool bufRx m d) (received d recvif m) with
      | none => none
      | some (queued, S') => some (some (received d recvif m, queued), S') := by
  obtain ⟨ext, data, -⟩ := getmbuf_room taken
  have inside : flen d = 0 ∨ m.room.addr ≤ m.data ∧ m.data + flen d ≤ m.room.stop := by
    right
    simp only [Mbuf.room, ext, if_true, Region.stop, data]
    omega
  rw [rxPass, if_pos accepted, taken]
  dsimp only
  rw [Pool.fill, if_pos inside]
  rfl

theorem flen_eq (d : RxDesc) (whole : ethFcsLen ≤ d.frameLen) : flen d = d.frameLen - 4 := by
  have short : d.frameLen < 2^14 := d.frameLength.isLt
  exact wsub_of_le whole (by omega)

theorem flen_wraps (short : d.frameLen < ethFcsLen) : flen d = 2^32 - 4 + d.frameLen := by
  rw [flen, wsub, wrap, ethFcsLen] at *
  omega

theorem strip_len (dst : Mac) : (etherStrip (received d recvif m) dst).len = wsub (flen d) sizeofEtherHdr ∧
    (etherStrip (received d recvif m) dst).pkthdr.mpLen = wsub (flen d) sizeofEtherHdr := ⟨rfl, rfl⟩

/-- The lengths of a frame are right exactly when its header and its checksum are there, or only the
    checksum when `ether_input` drops it. -/
theorem frames_safe_iff (A : Arena) (E : EtherDev) (recvif : Nat) (S : Input) (d : RxDesc) (bufRx : Nat) :
    Safe A E recvif S d bufRx ↔
      (stmmacRxStatus d = 0 → ∀ m pool, stmmacGetmbuf A S.pool = some (some m, pool) → 4 ≤ d.frameLen ∧
        (18 ≤ d.frameLen ∨ Dropped E S.ifq (bcopy pool.mem bufRx m.data (flen d))
          (received d recvif m))) := by
  refine forall_congr' fun accepted => forall_congr' fun m => forall_congr' fun pool =>
    forall_congr' fun taken => ?_
  obtain ⟨ext, data, size⟩ := getmbuf_room taken
  have long := accepted_short accepted
  have cluster : mclBytes = 2048 := rfl
  have align : ipAlignLen = 2 := rfl
  by_cases whole : 4 ≤ d.frameLen
  · have copied := flen_eq d whole
    have pass := @rxPass_copied A E recvif bufRx S d m pool accepted taken (by omega)
    have header : sizeofEtherHdr = 14 := rfl
    rw [pass, and_iff_right ⟨by omega, by omega⟩, and_iff_right whole]
    constructor
    · intro right
      by_cases enough : 18 ≤ d.frameLen
      · exact .inl enough
      · right
        by_contra kept
        obtain ⟨q, S', queues⟩ := etherInput_queues (S := S.copied pool bufRx m d) kept
        have lengths := (right (received d recvif m) (some q) S' (by rw [queues])).2 q rfl
        rw [Holds, (etherInput_queued queues).1, (strip_len _).1, wsub, wrap] at lengths
        omega
    · intro right given queued S' passed
      split at passed
      · cases passed
      · rename_i next S'' input
        cases passed
        have given : Holds (received d recvif m) (d.frameLen - 4) := by
          rw [Holds, received]
          dsimp only
          omega
        refine ⟨given, ?_⟩
        rintro q rfl
        obtain ⟨stripped, kept⟩ := etherInput_queued input
        have enough : 18 ≤ d.frameLen := right.resolve_right kept
        rw [stripped, Holds, (strip_len _).1, (strip_len _).2, wsub_of_le (by omega) (by omega)]
        omega
  · have wraps := flen_wraps (Nat.lt_of_not_le whole)
    refine iff_of_false ?_ fun right => whole right.1
    rintro ⟨⟨_, fits⟩, _⟩
    rw [data, size, wraps] at fits
    omega

def idleInput : Input := ⟨started, fun _ => ⟨[], ifqMaxlen, 0⟩, 0, 0, 0⟩
def openDev : EtherDev := ⟨Vector.replicate 6 2, true, false⟩

/-- A frame of no bytes is accepted, and nearly the whole address space is copied. -/
theorem empty_frame_copied : ¬ Safe Kmem.board openDev 1 idleInput ⟨false, 0, true, true⟩ 0x80100000 := by
  intro safe
  have given : ((stmmacGetmbuf Kmem.board idleInput.pool).bind Prod.fst).isSome = true := by decide +kernel
  obtain ⟨m, mbuf⟩ := Option.isSome_iff_exists.mp given
  obtain ⟨⟨_, pool⟩, taken, rfl⟩ := Option.bind_eq_some_iff.mp mbuf
  obtain ⟨-, data, size⟩ := getmbuf_room taken
  have fits := (safe (by decide) m pool taken).1.2
  have long : flen ⟨false, 0, true, true⟩ = 4294967292 := by decide
  have cluster : mclBytes = 2048 := rfl
  rw [data, size, long] at fits
  omega

end Embryo.Drivers
