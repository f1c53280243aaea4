import Embryo.Sock.Receive

namespace Embryo.Sock

open Embryo.Machine Embryo.Uipc

def eInval : Nat := 22
def ePipe : Nat := 32
def eDestaddrreq : Nat := 39
def eMsgsize : Nat := 40
def eNobufs : Nat := 55
def eNotconn : Nat := 57

def minmclsize : Nat := mlen + mhlen + 1

def maxHdr : Nat := 16

structure Outgoing where
  iov : List (List UInt8)
  resid : Nat

/-- What `sosend` looks at in a protocol: `SOCK_STREAM`, `PRF_ATOMIC` and `PRF_CONNREQUIRED`. -/
structure Proto where
  stream : Bool
  atomic : Bool
  connrequired : Bool

structure SendSide where
  cantsendmore : Bool
  isconnected : Bool
  isconfirming : Bool
  nbio : Bool
  dontroute : Bool
  error : Nat
  sndsb : Sockbuf

/-- The arguments of `sosend`. `addr` and `uio` are `none`, and `top` and `control` empty, where
    they are `NULL`. -/
structure SendRequest where
  addr : Option Chain
  uio : Option Outgoing
  top : Chain
  control : Chain
  dontwait : Bool
  eor : Bool
  dontroute : Bool

structure Handed (σ : Type) where
  state : σ
  top : Chain
  control : Chain
  addr : Option Chain
  dontroute : Bool

/-- What `sosend` calls, over a state that other processes share. A call gives its error code, a
    failed allocation no mbuf. `bump` adds to the first word of the data part of an mbuf. -/
structure Env (σ : Type) where
  sock : σ → SendSide
  sblock : Bool → σ → Nat × σ
  sbunlock : σ → σ
  sbwait : σ → Nat × σ
  take : Bool → σ → Option Mbuf × σ
  getext : Mbuf → σ → Option (Nat × Mbuf × σ)
  uiomove : Mbuf → Nat → Outgoing → σ → Option (Nat × Outgoing × σ)
  bump : Mbuf → Nat → σ → σ
  usrreq : Handed σ → Nat × σ
  freem : Chain → σ → Option σ
  getext_addr : ∀ m e r, getext m e = some r → r.2.1.addr = m.addr

/-- The variables of `sosend`, what `mp` points to, `&top` or the end of the chain, whether the call
    holds the lock, the mbufs it has allocated, and its calls of `PRU_SEND`. -/
structure Sending (σ : Type) where
  e : σ
  uio : Outgoing
  resid : Nat
  space : Nat
  clen : Nat
  top : Chain
  control : Chain
  err : Nat
  mpTop : Bool
  locked : Bool
  got : Chain
  handed : List (Handed σ)

variable {σ : Type}

/-- From the choice of the storage on: the mbuf, and the `len` of this pass. -/
def placeData (E : Env σ) (atomic first : Bool) (resid space : Nat) (m : Mbuf) (e : σ) :
    Option (Mbuf × Nat × σ) :=
  let room := if first then mhlen else mlen
  let nopages := fun (m : Mbuf) =>
    let len := min (min room space) resid
    (if atomic ∧ first ∧ len < room then
      { m with data := m.data + (mhlen - len) / sizeofLong * sizeofLong } else m, len)
  if resid ≥ minmclsize ∧ space ≥ mclBytes then
    match E.getext m e with
    | none => none
    | some (code, m, e) =>
      if code = 0 then some ((nopages m).1, (nopages m).2, e)
      else if atomic ∧ first then some ({ m with data := m.data + maxHdr }, min (mclBytes - maxHdr) resid, e)
      else some (m, min mclBytes resid, e)
  else some ((nopages m).1, (nopages m).2, e)

/-- `top->m_pkthdr.mp_len += len`, which is in the data of an mbuf without that header. -/
def addMpLen (E : Env σ) (top : Chain) (len : Nat) (e : σ) : Chain × σ :=
  match top with
  | [] => ([], e)
  | first :: rest =>
    ({ first with pkthdr := { first.pkthdr with mpLen := wrap (first.pkthdr.mpLen + len) } } :: rest,
      if first.flags.pkthdr then e else E.bump first len e)

/-- `top->m_flags |= MF_EOR`. -/
def markEor (top : Chain) : Chain :=
  match top with
  | [] => []
  | first :: rest => { first with flags := { first.flags with eor := true } } :: rest

/-- `*mp = m`. -/
def link (mpTop : Bool) (top : Chain) (m : Mbuf) : Chain := if mpTop then [m] else top ++ [m]

/-- The body of the innermost loop. It is left for `PRU_SEND`, or for `release`. -/
def fillPass (E : Env σ) (atomic eor : Bool) (s : Sending σ) : Option (Pass (Sending σ) (Bool × Sending σ)) :=
  let first := s.top.isEmpty
  match E.take first s.e with
  | (none, e) => some (.leave (false, { s with e, err := eNobufs }))
  | (some m, e) =>
    let m := if first then { m with pkthdr := ⟨0, 0⟩ } else m
    match placeData E atomic first s.resid s.space m e with
    | none => none
    | some (m, len, e) =>
      let space := wsub s.space len
      match E.uiomove m len s.uio e with
      | none => none
      | some (err, uio, e) =>
        let m := { m with len }
        let (top, e) := addMpLen E (link s.mpTop s.top m) len e
        let s := { s with e, uio, resid := uio.resid, space, top, err, got := s.got ++ [m] }
        if err ≠ 0 then some (.leave (false, s))
        else
          let s := { s with mpTop := false }
          if s.resid = 0 then some (.leave (true, if eor then { s with top := markEor s.top } else s))
          else if s.space > 0 ∧ atomic then some (.again s)
          else some (.leave (true, s))

def atomicSend (proto : Proto) (req : SendRequest) : Bool := proto.atomic || !req.top.isEmpty

def build (E : Env σ) (fuel : Nat) (proto : Proto) (req : SendRequest) (s : Sending σ) :
    Option (Bool × Sending σ) :=
  match req.uio with
  | none => some (true, { s with resid := 0, top := if req.eor then markEor s.top else s.top })
  | some _ => loop (fillPass E (atomicSend proto req) req.eor) fuel s

/-- The body of the middle loop. It is left for the end of the outer one, or for `release`. -/
def sendPass (E : Env σ) (fuel : Nat) (proto : Proto) (dontroute : Bool) (req : SendRequest) (s : Sending σ) :
    Option (Pass (Sending σ) (Bool × Sending σ)) :=
  match build E fuel proto req s with
  | none => none
  | some (false, s) => some (.leave (false, s))
  | some (true, s) =>
    let call : Handed σ := ⟨s.e, s.top, s.control, req.addr, (E.sock s.e).dontroute || dontroute⟩
    let (err, e) := E.usrreq call
    let s :=
      { s with e, err, clen := 0, control := [], top := [], mpTop := true, handed := s.handed ++ [call] }
    if err ≠ 0 then some (.leave (false, s))
    else if s.resid ≠ 0 ∧ s.space > 0 then some (.again s)
    else some (.leave (true, s))

def unsendable (proto : Proto) (so : SendSide) (req : SendRequest) (resid : Nat) : Option Nat :=
  if so.cantsendmore then some ePipe
  else if so.error ≠ 0 then some so.error
  else if so.isconnected then none
  else if proto.connrequired then (if resid = 0 ∧ ¬ so.isconfirming then some eNotconn else none)
  else if req.addr.isNone then some eDestaddrreq
  else none

def tooFull (proto : Proto) (so : SendSide) (req : SendRequest) (resid clen : Nat) : Bool :=
  let space := sbspace so.sndsb
  space < resid + clen ∧ req.uio.isSome ∧ (atomicSend proto req ∨ space < so.sndsb.lowat ∨ space < clen)

inductive Exit where
  | release
  | out
deriving DecidableEq

def lockedPass (E : Env σ) (fuel : Nat) (proto : Proto) (dontroute : Bool) (req : SendRequest)
    (s : Sending σ) :
    Option (Pass (Bool × Sending σ) (Exit × Sending σ)) :=
  match unsendable proto (E.sock s.e) req s.resid with
  | some err => some (.leave (.release, { s with err }))
  | none =>
    if tooFull proto (E.sock s.e) req s.resid s.clen then
      if (E.sock s.e).nbio then some (.leave (.release, { s with err := eWouldblock }))
      else
        let (err, e) := E.sbwait (E.sbunlock s.e)
        let s := { s with e, err, locked := false }
        if err ≠ 0 then some (.leave (.out, s)) else some (.again (true, s))
    else
      match loop (sendPass E fuel proto dontroute req) fuel
          { s with mpTop := true, space := wsub (sbspace (E.sock s.e).sndsb) s.clen } with
      | none => none
      | some (false, s) => some (.leave (.release, s))
      | some (true, s) => if s.resid ≠ 0 then some (.again (false, s)) else some (.leave (.release, s))

/-- The outer loop, with the label `restart` before it. -/
def outerPass (E : Env σ) (fuel : Nat) (proto : Proto) (dontroute : Bool) (req : SendRequest)
    (at' : Bool × Sending σ) :
    Option (Pass (Bool × Sending σ) (Exit × Sending σ)) :=
  let (restart, s) := at'
  if restart then
    let (err, e) := E.sblock req.dontwait s.e
    if err ≠ 0 then some (.leave (.out, { s with e, err }))
    else lockedPass E fuel proto dontroute req { s with e, err, locked := true }
  else lockedPass E fuel proto dontroute req s

/-- A call that has returned: also what it has freed, and whether it has left the buffer locked. -/
structure Sent (σ : Type) where
  e : σ
  err : Nat
  uio : Outgoing
  handed : List (Handed σ)
  got : Chain
  released : Chain
  locked : Bool

def sendEnd (E : Env σ) (exit : Exit) (s : Sending σ) : Option (Sent σ) :=
  let (e, locked) := match exit with
    | .release => (E.sbunlock s.e, false)
    | .out => (s.e, s.locked)
  match (if s.top.isEmpty then some e else E.freem s.top e) with
  | none => none
  | some e =>
    match (if s.control.isEmpty then some e else E.freem s.control e) with
    | none => none
    | some e => some ⟨e, s.err, s.uio, s.handed, s.got, s.top ++ s.control, locked⟩

def sendResid (req : SendRequest) : Nat :=
  match req.uio with
  | some uio => uio.resid
  | none => mpLenOf req.top

def controlLen (req : SendRequest) : Nat :=
  match req.control with
  | [] => 0
  | m :: _ => m.len

def refuses (proto : Proto) (so : SendSide) (req : SendRequest) : Option Nat :=
  if req.uio.isNone ∧ req.top.isEmpty then some eInval
  else if proto.stream ∧ req.eor then some eInval
  else if (atomicSend proto req ∧ sendResid req > so.sndsb.hiwat) ∨
    controlLen req > so.sndsb.hiwat then some eMsgsize
  else none

/-- `SO_DONTROUTE` is to be set for this call. -/
def onceDontroute (proto : Proto) (so : SendSide) (req : SendRequest) : Bool :=
  req.dontroute && !so.dontroute && proto.atomic

def sosend (E : Env σ) (fuel : Nat) (proto : Proto) (req : SendRequest) (e : σ) : Option (Sent σ) :=
  let so := E.sock e
  let uio := req.uio.getD ⟨[], 0⟩
  match refuses proto so req with
  | some err => some ⟨e, err, uio, [], [], [], false⟩
  | none =>
    match loop (outerPass E fuel proto (onceDontroute proto so req) req) fuel
        (true, ⟨e, uio, sendResid req, 0, controlLen req, req.top, req.control, 0, true, false, [], []⟩) with
    | none => none
    | some (exit, s) => sendEnd E exit s

end Embryo.Sock
