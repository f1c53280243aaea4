import Embryo.Machine.Chains
import Embryo.Machine.Endian
import Embryo.Machine.Loop

namespace Embryo.Inet

open Embryo.Machine

def enomem : Nat := 12
def einval : Nat := 22
def eprotonosupport : Nat := 43
def eaddrinuse : Nat := 48
def eaddrnotavail : Nat := 49
def eisconn : Nat := 56
def enotconn : Nat := 57

def afInet : Nat := 2
def sizeofSockaddrIn : Nat := 16
def ipportReserved : UInt16 := 1024
def ipportUserreserved : UInt16 := 49151
def ipportHifirstauto : UInt16 := 49152
def ipportHilastauto : UInt16 := 65535

def inaddrAny : UInt32 := htonl 0x00000000
def inaddrBroadcast : UInt32 := htonl 0xffffffff

def inMulticast (x : UInt32) : Bool := x &&& htonl 0xf0000000 == htonl 0xe0000000

structure SockaddrIn where
  len : Nat
  family : Nat
  port : UInt16
  addr : UInt32
deriving DecidableEq, Repr

structure SoOptions where
  reuseaddr : Bool
  reuseport : Bool
  acceptconn : Bool
  dontroute : Bool
deriving DecidableEq, Repr

structure RtIf where
  ifp : Bool
  ifa : UInt32
deriving DecidableEq, Repr

structure PcbRoute where
  rt : Option RtIf
  dst : UInt32
deriving DecidableEq, Repr

structure InPcb where
  hiport : Bool
  options : SoOptions
  ro : PcbRoute
  faddr : UInt32
  laddr : UInt32
  fport : UInt16
  lport : UInt16
deriving DecidableEq, Repr

structure Inpcbtable where
  pcbqueue : List Nat
  pcbhashtbl : Chains UInt32 Nat
  hashmask : UInt32
  lastport : UInt16
  pcb : Nat → InPcb

structure InIfaddr where
  addr : UInt32
  broadaddr : UInt32
  broadcast : Bool
deriving DecidableEq, Repr

/-- The interfaces and the routing table, as a call finds them: `in_ifaddrlist`, the answers of
    `ifa_ifwithaddr`, `ifa_ifwithdstaddr` and `ifa_ifwithnet`, and the route `rt_alloc` finds. -/
structure Net where
  ifaddrlist : List InIfaddr
  withaddr : UInt32 → Bool
  withdstaddr : UInt32 → Option UInt32
  withnet : UInt32 → Option UInt32
  rtAlloc : UInt32 → Option RtIf

def inpcbhash (mask : UInt32) (faddr : UInt32) (fport : UInt16) (laddr : UInt32) (lport : UInt16) : UInt32 :=
  (ntohl faddr + (ntohs fport).toUInt32 + ntohl laddr + (ntohs lport).toUInt32) &&& mask

namespace Inpcbtable

def index (T : Inpcbtable) (p : Nat) : UInt32 :=
  inpcbhash T.hashmask (T.pcb p).faddr (T.pcb p).fport (T.pcb p).laddr (T.pcb p).lport

def modify (T : Inpcbtable) (p : Nat) (f : InPcb → InPcb) : Inpcbtable :=
  { T with pcb := Function.update T.pcb p (f (T.pcb p)) }

def rehash (T : Inpcbtable) (p : Nat) : Inpcbtable :=
  { T with pcbhashtbl := (T.pcbhashtbl.del p).add (T.index p) p }

end Inpcbtable

def initInpcb (hashsize : Nat) (pcb : Nat → InPcb) : Inpcbtable where
  pcbqueue := []
  pcbhashtbl := fun _ => []
  hashmask := UInt32.ofNat (2^Nat.log2 hashsize - 1)
  lastport := 0
  pcb := pcb

def inBadport (port : UInt16) : Bool := port ≤ ipportReserved

def zeroPcb (options : SoOptions) : InPcb := ⟨false, options, ⟨none, 0⟩, 0, 0, 0, 0⟩

/-- `alloc_inpcb`, where `p` is what `kmem_malloc` has returned. -/
def allocInpcb (T : Inpcbtable) (p : Nat) (options : SoOptions) : Nat × Inpcbtable :=
  if p = 0 then (enomem, T)
  else
    let T := T.modify p (fun _ => zeroPcb options)
    (0, { T with
      pcbqueue := p :: T.pcbqueue
      pcbhashtbl := T.pcbhashtbl.add (T.index p) p })

def freeInpcb (T : Inpcbtable) (p : Nat) : Inpcbtable :=
  { T with pcbqueue := T.pcbqueue.erase p, pcbhashtbl := T.pcbhashtbl.del p }

/-- How many of its two addresses a pcb matches by wildcard only; `none` when it does not match. -/
def wildMatch (cur : InPcb) (faddr : UInt32) (fport : UInt16) (laddr : UInt32) : Option Nat :=
  let near :=
    if cur.laddr ≠ inaddrAny then
      if laddr = inaddrAny then some 1 else if cur.laddr ≠ laddr then none else some 0
    else some (if laddr ≠ inaddrAny then 1 else 0)
  let far :=
    if cur.faddr ≠ inaddrAny then
      if faddr = inaddrAny then some 1 else if cur.faddr ≠ faddr ∨ cur.fport ≠ fport then none else some 0
    else some (if faddr ≠ inaddrAny then 1 else 0)
  match near, far with
  | some m, some n => some (m + n)
  | _, _ => none

def lookupLoop (T : Inpcbtable) (wildcard : Bool) (faddr : UInt32) (fport : UInt16) (laddr : UInt32)
    (lport : UInt16) : List Nat → Nat → Option Nat → Option Nat
  | [], _, best => best
  | cur :: rest, minWild, best =>
    let wild :=
      if (T.pcb cur).lport ≠ lport then none else wildMatch (T.pcb cur) faddr fport laddr
    match wild with
    | none => lookupLoop T wildcard faddr fport laddr lport rest minWild best
    | some wild =>
      if (wild = 0 ∨ wildcard) ∧ wild < minWild then
        if wild = 0 then some cur
        else lookupLoop T wildcard faddr fport laddr lport rest wild (some cur)
      else lookupLoop T wildcard faddr fport laddr lport rest minWild best

def inpcbLookup (T : Inpcbtable) (wildcard : Bool) (faddr : UInt32) (fport : UInt16) (laddr : UInt32)
    (lport : UInt16) : Option Nat :=
  lookupLoop T wildcard faddr fport laddr lport T.pcbqueue 3 none

/-- The test of `inpcb_hashlookup`. It compares the ports of the pcb with each other. -/
def hashMatch (cur : InPcb) (faddr laddr : UInt32) : Bool :=
  cur.faddr == faddr && cur.fport == cur.lport && cur.laddr == laddr && cur.lport == cur.lport

def inpcbHashlookup (T : Inpcbtable) (faddr : UInt32) (fport : UInt16) (laddr : UInt32) (lport : UInt16) :
    Option Nat × Inpcbtable :=
  let head := inpcbhash T.hashmask faddr fport laddr lport
  match (T.pcbhashtbl head).find? (fun cur => hashMatch (T.pcb cur) faddr laddr) with
  | none => (none, T)
  | some cur => (some cur, { T with pcbhashtbl := (T.pcbhashtbl.del cur).add head cur })

def portPass (T : Inpcbtable) (wildcard : Bool) (laddr : UInt32) (last : UInt16) (lport : UInt16) :
    Option (Pass UInt16 UInt16) :=
  if inpcbLookup T wildcard 0 0 laddr (htons lport) = none then some (.leave lport)
  else if lport + 1 ≤ last then some (.again (lport + 1))
  else some (.leave (lport + 1))

def autoPort (fuel : Nat) (T : Inpcbtable) (wildcard hiport : Bool) (laddr : UInt32) :
    Option (UInt16 × UInt16) :=
  let first := if hiport then ipportHifirstauto else ipportReserved
  let last := if hiport then ipportHilastauto else ipportUserreserved
  (loop (portPass T wildcard laddr last) fuel first).map (·, last)

def bindPort (fuel : Nat) (T : Inpcbtable) (p : Nat) (wildcard : Bool) (lport : UInt16) :
    Option (Nat × Inpcbtable) :=
  if lport ≠ 0 then some (0, (T.modify p (fun c => { c with lport := lport })).rehash p)
  else
    match autoPort fuel T wildcard (T.pcb p).hiport (T.pcb p).laddr with
    | none => none
    | some (lport, last) =>
      if lport > last then some (eaddrnotavail, T.modify p (fun c => { c with laddr := inaddrAny }))
      else
        let T := { T with lastport := lport }
        some (0, (T.modify p (fun c => { c with lport := htons lport })).rehash p)

/-- `inpcb_bind`. Its `flags` are set on one path only; `stray` is the wildcard bit they have on the
    other. The result is `none` when the search for a port never ends. -/
def inpcbBind (N : Net) (fuel : Nat) (T : Inpcbtable) (p : Nat) (addr : Option SockaddrIn) (stray : Bool) :
    Option (Nat × Inpcbtable) :=
  let inp := T.pcb p
  if N.ifaddrlist = [] then some (eaddrnotavail, T)
  else if inp.laddr ≠ inaddrAny ∨ inp.lport ≠ 0 then some (einval, T)
  else
    let o := inp.options
    let wildcard := if ¬ (o.reuseaddr ∨ o.reuseport ∨ o.acceptconn) then true else stray
    match addr with
    | none => bindPort fuel T p wildcard 0
    | some laddr =>
      if laddr.len ≠ sizeofSockaddrIn then some (einval, T)
      else if laddr.family ≠ afInet then some (eprotonosupport, T)
      else if inMulticast laddr.addr then some (eaddrnotavail, T)
      else if laddr.addr ≠ inaddrAny ∧ ¬ N.withaddr laddr.addr then some (eaddrnotavail, T)
      else if laddr.port ≠ 0 ∧ inBadport (ntohs laddr.port) then some (einval, T)
      else
        let inUse : Bool :=
          match inpcbLookup T wildcard 0 0 laddr.addr laddr.port with
          | none => false
          | some t => !(o.reuseport && (T.pcb t).options.reuseport)
        if laddr.port ≠ 0 ∧ inUse then some (eaddrinuse, T)
        else bindPort fuel (T.modify p (fun c => { c with laddr := laddr.addr })) p wildcard laddr.port

def foreignAddr (primary : InIfaddr) (addr : UInt32) : UInt32 :=
  let addr := if addr = inaddrAny then primary.addr else addr
  if addr = inaddrBroadcast ∧ primary.broadcast then primary.broadaddr else addr

def localAddr (N : Net) (primary : InIfaddr) (inp : InPcb) (faddr : UInt32) : PcbRoute × UInt32 :=
  let ro := inp.ro
  let ro := if ro.rt ≠ none ∧ (ro.dst ≠ faddr ∨ inp.options.dontroute) then { ro with rt := none } else ro
  let incomplete : Bool := match ro.rt with
    | none => true
    | some rt => !rt.ifp
  let ro := if ¬ inp.options.dontroute ∧ incomplete then ⟨ro.rt.or (N.rtAlloc faddr), faddr⟩ else ro
  match ro.rt with
  | some rt => (ro, rt.ifa)
  | none => (ro, (N.withdstaddr faddr).getD ((N.withnet faddr).getD primary.addr))

def connectTo (T : Inpcbtable) (p : Nat) (faddr : UInt32) (fport : UInt16) (laddr : UInt32) (lport : UInt16) :
    Nat × Inpcbtable :=
  match inpcbHashlookup T faddr fport laddr lport with
  | (some _, T) => (eaddrnotavail, T)
  | (none, T) =>
    (0,
      (T.modify p (fun c =>
        { c with lport := lport, laddr := laddr, fport := fport, faddr := faddr })).rehash p)

def inpcbConnect (N : Net) (fuel : Nat) (T : Inpcbtable) (p : Nat) (addr : Option SockaddrIn) (stray : Bool) :
    Option (Nat × Inpcbtable) :=
  match addr with
  | none => some (einval, T)
  | some sin =>
    if sin.len ≠ sizeofSockaddrIn then some (einval, T)
    else if sin.family ≠ afInet then some (eprotonosupport, T)
    else if inMulticast sin.addr then some (eaddrnotavail, T)
    else
      match N.ifaddrlist with
      | [] => some (eaddrnotavail, T)
      | primary :: _ =>
        let inp := T.pcb p
        let faddr := foreignAddr primary sin.addr
        if inp.laddr ≠ inaddrAny then some (connectTo T p faddr sin.port inp.laddr inp.lport)
        else
          let (ro, laddr) := localAddr N primary inp faddr
          let T := T.modify p (fun c => { c with ro := ro })
          if inp.lport ≠ 0 then some (connectTo T p faddr sin.port laddr inp.lport)
          else
            match inpcbBind N fuel T p none stray with
            | none => none
            | some (0, T) =>
              let lport := (T.pcb p).lport
              let T := T.modify p (fun c => { c with lport := 0 })
              some (connectTo T p faddr sin.port laddr lport)
            | some (_, T) => some (eaddrnotavail, T)

def inpcbDisconnect (T : Inpcbtable) (p : Nat) : Inpcbtable :=
  (T.modify p (fun c => { c with faddr := inaddrAny, fport := 0 })).rehash p

/-- `udp_output`, in what it does to the pcb. `send` is the code and the `inp_ro` that building the
    packet and `ip_output` leave. -/
def udpOutputPcb (N : Net) (fuel : Nat) (T : Inpcbtable) (p : Nat) (addr : Option SockaddrIn) (stray : Bool)
    (send : InPcb → Nat × PcbRoute) : Option (Nat × Inpcbtable) :=
  let sent := fun (T : Inpcbtable) => T.modify p (fun c => { c with ro := (send c).2 })
  match addr with
  | none =>
    if (T.pcb p).faddr = inaddrAny then some (enotconn, T)
    else some ((send (T.pcb p)).1, sent T)
  | some _ =>
    if (T.pcb p).faddr ≠ inaddrAny then some (eisconn, T)
    else
      let laddr := (T.pcb p).laddr
      match inpcbConnect N fuel T p addr stray with
      | none => none
      | some (0, T) =>
        let code := (send (T.pcb p)).1
        let T := inpcbDisconnect (sent T) p
        some (code, T.modify p (fun c => { c with laddr := laddr }))
      | some (err, T) => some (err, T)

end Embryo.Inet
