import Embryo.Sock.Sockbuf

namespace Embryo.Sock

open Embryo.Machine Embryo.Uipc
open Embryo.Kmem (Arena)

def eWouldblock : Nat := 35

/-- The `iov_len` fields still to be filled, `uio_resid`, and all bytes copied out so far. -/
structure Uio where
  iov : List Nat
  resid : Nat
  moved : List UInt8
deriving DecidableEq, Repr

/-- The loop of `uiomove` with `UIO_READ`. It goes round in one unit only to find it full. -/
def uiomoveLoop (mem : Memory) : List Nat → Nat → Nat → Nat → List UInt8 → Uio
  | [], _, _, resid, moved => ⟨[], resid, moved⟩
  | l :: iov, cp, len, resid, moved =>
    if len = 0 ∨ resid = 0 then ⟨l :: iov, resid, moved⟩
    else
      let cnt := min len l
      if len - cnt = 0 ∨ wsub resid cnt = 0 then
        ⟨(l - cnt) :: iov, wsub resid cnt, moved ++ bytes mem cp cnt⟩
      else uiomoveLoop mem iov (cp + cnt) (len - cnt) (wsub resid cnt) (moved ++ bytes mem cp cnt)

def uiomove (mem : Memory) (cp len : Nat) (uio : Uio) : Nat × Uio :=
  (0, uiomoveLoop mem uio.iov cp len uio.resid uio.moved)

structure MsgFlags where
  dontwait : Bool
  eor : Bool
  oob : Bool
  peek : Bool
  waitall : Bool
  bcast : Bool
  mcast : Bool
  trunc : Bool
deriving DecidableEq, Repr

def MsgFlags.or (f g : MsgFlags) : MsgFlags :=
  ⟨f.dontwait || g.dontwait, f.eor || g.eor, f.oob || g.oob, f.peek || g.peek,
    f.waitall || g.waitall, f.bcast || g.bcast, f.mcast || g.mcast, f.trunc || g.trunc⟩

/-- A socket with its receive buffer. Every protocol of `inet_protos` that has a `pr_usrreq` has
    the flags `PRF_ATOMIC|PRF_ADDR` and no other, and a domain without `dom_externalize`. -/
structure Socket where
  isconfirming : Bool
  cantsendmore : Bool
  nbio : Bool
  rcvatmark : Bool
  error : Nat
  oobmark : Nat
  rcvsb : Sockbuf
deriving DecidableEq, Repr

/-- The arguments of `soreceive`: which of its pointers are given, and what they point to. -/
structure Request where
  addrp : Bool
  controlp : Bool
  mp0 : Bool
  flags : MsgFlags
  uio : Uio
deriving DecidableEq, Repr

structure Received where
  pool : Pool
  so : Socket
  err : Nat
  addr : Chain
  control : Chain
  mp : Chain
  uio : Uio
  flags : MsgFlags

inductive Outcome where
  | waits
  | returns (r : Received)

/-- The first mbuf of the buffer, `m`, leaves it, to the caller or to the pool. -/
def unlink (A : Arena) (P : Pool) (sb : Sockbuf) (m : Mbuf) (next : Ptr) (wanted : Bool) :
    Option (Chain × Pool × Sockbuf) :=
  let sb := sbfree sb m
  if wanted then some ([m], P, { sb with mb := next })
  else
    match mbufFree A P m with
    | none => none
    | some P => some ([], P, { sb with mb := next })

def takeFirst (A : Arena) (P : Pool) (sb : Sockbuf) (m : Mbuf) (next : Ptr) (wanted peek : Bool) :
    Option (Chain × Pool × Sockbuf) :=
  if peek then
    if wanted then
      match mbufCopy A P (m :: next.chain) 0 m.len with
      | none => none
      | some (copy, P) => some (copy, P, sb)
    else some ([], P, sb)
  else unlink A P sb m next wanted

structure Hook where
  before : Chain
  here : Chain
deriving DecidableEq, Repr

def Hook.put (hook : Hook) (new : Chain) : Hook :=
  match new with
  | [] => { hook with here := [] }
  | m :: rest => ⟨hook.before ++ [m], rest⟩

def takeControl (A : Arena) (wanted peek : Bool) :
    Ptr → Pool → Sockbuf → Hook → Option (Ptr × Pool × Sockbuf × Hook)
  | .null, P, sb, hook => some (.null, P, sb, hook)
  | .mbuf m next nextpkt, P, sb, hook =>
    if m.type ≠ mtControl then some (.mbuf m next nextpkt, P, sb, hook)
    else
      match takeFirst A P sb m next wanted peek with
      | none => none
      | some (new, P, sb) =>
        takeControl A wanted peek next P sb (if wanted then hook.put new else hook)

/-- The variables of the loop over the data. Without `MSG_PEEK`, `m` is `sb_mb`. -/
structure Receiving where
  pool : Pool
  so : Socket
  uio : Uio
  uioErr : Nat
  m : Ptr
  nextpkt : Ptr
  mp : Chain
  flags : MsgFlags
  offset : Nat
  moff : Nat

def passLen (s : Receiving) (m : Mbuf) : Nat :=
  let len := s.uio.resid
  let mark := wsub s.so.oobmark s.offset
  let len := if s.so.oobmark ≠ 0 ∧ len > mark then mark else len
  min len (wsub m.len s.moff)

def passMove (mp0 : Bool) (s : Receiving) (m : Mbuf) (len : Nat) : Receiving :=
  let s := { s with so := { s.so with rcvatmark := false } }
  if ¬ mp0 ∧ s.uioErr = 0 then
    let (err, uio) := uiomove s.pool.mem (wrap (m.data + s.moff)) len s.uio
    { s with
      uioErr := err
      uio := if err ≠ 0 then { uio with resid := wsub s.uio.resid len } else uio }
  else { s with uio := { s.uio with resid := wsub s.uio.resid len } }

def Socket.setRcvsb (so : Socket) (sb : Sockbuf) : Socket := { so with rcvsb := sb }

/-- The whole of `m` has been taken: it leaves the buffer, or is passed over. -/
def passWhole (A : Arena) (mp0 : Bool) (s : Receiving) (m : Mbuf) (next nextpkt : Ptr) : Option Receiving :=
  let s := { s with flags := { s.flags with eor := s.flags.eor || m.flags.eor } }
  if s.flags.peek then some { s with moff := 0, m := next }
  else
    match unlink A s.pool s.so.rcvsb m next mp0 with
    | none => none
    | some (new, P, sb) =>
      let first := next.setNextpkt nextpkt
      some { s with
        pool := P
        so := s.so.setRcvsb { sb with mb := first }
        m := first
        nextpkt := nextpkt
        mp := s.mp ++ new }

def passPart (A : Arena) (mp0 : Bool) (s : Receiving) (m : Mbuf) (next nextpkt : Ptr) (len : Nat) :
    Option Receiving :=
  if s.flags.peek then some { s with moff := wrap (s.moff + len) }
  else
    let copied :=
      if mp0 then mbufCopy A s.pool (m :: next.chain) 0 len else some ([], s.pool)
    match copied with
    | none => none
    | some (copy, P) =>
      let m := { m with data := wrap (m.data + len), len := wsub m.len len }
      let sb := s.so.rcvsb
      some { s with
        pool := P
        so := s.so.setRcvsb { sb with cc := wsub sb.cc len, mb := .mbuf m next nextpkt }
        m := .mbuf m next nextpkt
        mp := s.mp ++ copy }

/-- The end of the loop's body: `soc_oobmark` follows, and the mark or `MSG_EOR` ends the loop. -/
def passEnd (s : Receiving) (len : Nat) : Pass Receiving Receiving :=
  if s.so.oobmark ≠ 0 then
    if s.flags.peek then
      let s := { s with offset := wrap (s.offset + len) }
      if s.offset = s.so.oobmark ∨ s.flags.eor then .leave s else .again s
    else
      let so := { s.so with oobmark := wsub s.so.oobmark len }
      if so.oobmark = 0 then .leave { s with so := { so with rcvatmark := true } }
      else if s.flags.eor then .leave { s with so := so }
      else .again { s with so := so }
  else if s.flags.eor then .leave s
  else .again s

def passTake (A : Arena) (mp0 : Bool) (s : Receiving) (m : Mbuf) (next nextpkt : Ptr) (len : Nat) :
    Option Receiving :=
  if len = wsub m.len s.moff then passWhole A mp0 s m next nextpkt
  else passPart A mp0 s m next nextpkt len

/-- The body of the loop over the data; `type` is the type of the first data mbuf. -/
def receivePass (A : Arena) (mp0 : Bool) (type : Nat) (s : Receiving) : Option (Pass Receiving Receiving) :=
  match s.m with
  | .null => some (.leave s)
  | .mbuf m next nextpkt =>
    if s.uio.resid = 0 then some (.leave s)
    else if ¬ (type = mtOobdata ↔ m.type = mtOobdata) then some (.leave s)
    else
      let len := passLen s m
      match passTake A mp0 (passMove mp0 s m len) m next nextpkt len with
      | none => none
      | some s => some (passEnd s len)

def MsgFlags.about (flags : MsgFlags) (m : Ptr) : MsgFlags :=
  match m with
  | .null => flags
  | .mbuf m _ _ =>
    if m.type = mtOobdata then { flags with oob := true }
    else if m.flags.bcast then { flags with bcast := true }
    else if m.flags.mcast then { flags with mcast := true }
    else flags

/-- What follows the loop. The rest of the record is thrown away. -/
def receiveEnd (A : Arena) (req : Request) (addr control : Chain) (s : Receiving) : Option Outcome :=
  let finish := fun (P : Pool) (sb : Sockbuf) (flags : MsgFlags) =>
    Outcome.returns ⟨P, s.so.setRcvsb sb, s.uioErr, addr, control, s.mp, s.uio, req.flags.or flags⟩
  let sb := s.so.rcvsb
  match s.m with
  | .null => some (finish s.pool (if s.flags.peek then sb else { sb with mb := s.nextpkt }) s.flags)
  | .mbuf _ _ _ =>
    let flags := { s.flags with trunc := true }
    if s.flags.peek then some (finish s.pool sb flags)
    else
      match sbdroprecord A s.pool sb with
      | none => none
      | some (P, sb) => some (finish P sb flags)

def dataType : Ptr → Nat
  | .null => 0
  | .mbuf m _ _ => m.type

/-- The variables before the loop over the data, `m` being the first mbuf of the data. -/
def receiveStart (P : Pool) (so : Socket) (sb : Sockbuf) (uio : Uio) (flags : MsgFlags) (m nextpkt : Ptr) :
    Receiving :=
  let first := if flags.peek then m else m.setNextpkt nextpkt
  let sb := if flags.peek then sb else { sb with mb := first }
  ⟨P, so.setRcvsb sb, uio, 0, first, nextpkt, [], flags.about m, 0, 0⟩

def receiveRecord (A : Arena) (fuel : Nat) (P : Pool) (so : Socket) (req : Request) (flags : MsgFlags)
    (m : Mbuf) (next nextpkt : Ptr) : Option Outcome :=
  match takeFirst A P so.rcvsb m next req.addrp flags.peek with
  | none => none
  | some (addr, P, sb) =>
    match takeControl A req.controlp flags.peek next P sb ⟨[], []⟩ with
    | none => none
    | some (m, P, sb, hook) =>
      let s := receiveStart P so sb req.uio flags m nextpkt
      match loop (receivePass A req.mp0 (dataType m)) fuel s with
      | none => none
      | some s => receiveEnd A req addr (hook.before ++ hook.here) s

def tooLittle (so : Socket) (req : Request) (flags : MsgFlags) (nextpkt : Ptr) : Bool :=
  let sb := so.rcvsb
  (!flags.dontwait && !so.nbio) && decide (sb.cc < req.uio.resid) &&
    (decide (sb.cc < sb.lowat) || (flags.waitall && decide (req.uio.resid ≤ sb.hiwat))) &&
    nextpkt == .null

/-- What keeps a short record from being waited on: an error, the end of the connection, or an mbuf
    that ends the record or is out of band. -/
def goesOn (so : Socket) (record : Chain) : Bool :=
  so.error != 0 || so.cantsendmore || record.any (fun m => m.type == mtOobdata || m.flags.eor)

def unserved (P : Pool) (so : Socket) (req : Request) (err : Nat) : Outcome :=
  .returns ⟨P, so, err, [], [], [], req.uio, req.flags⟩

def sleepOrLeave (P : Pool) (so : Socket) (req : Request) (flags : MsgFlags) : Outcome :=
  if so.nbio ∨ flags.dontwait then unserved P so req eWouldblock
  else if req.uio.resid = 0 ∧ ¬ req.controlp then unserved P so req 0
  else .waits

/-- `soreceive`. `udp_usrreq` has no answer to `PRU_RCVOOB` and `PRU_RCVD` but `panic`. -/
def soreceive (A : Arena) (fuel : Nat) (P : Pool) (so : Socket) (req : Request) : Option Outcome :=
  let flags := { req.flags with eor := false, dontwait := req.flags.dontwait || so.nbio }
  if flags.oob then none
  else if so.isconfirming ∧ req.uio.resid ≠ 0 then none
  else
    match so.rcvsb.mb with
    | .null =>
      if so.error ≠ 0 then
        some (unserved P (if flags.peek then so else { so with error := 0 }) req so.error)
      else if so.cantsendmore then some (unserved P so req 0)
      else some (sleepOrLeave P so req flags)
    | .mbuf m next nextpkt =>
      if tooLittle so req flags nextpkt && !goesOn so (m :: next.chain) then
        some (sleepOrLeave P so req flags)
      else receiveRecord A fuel P so req flags m next nextpkt

end Embryo.Sock
