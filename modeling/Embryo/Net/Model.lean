import Embryo.Machine.Endian
import Embryo.Machine.Slots
import Embryo.Uipc.Chain

namespace Embryo.Net

open Embryo.Machine Embryo.Uipc
open Embryo.Kmem (Arena)

def eafnosupport : Nat := 47
def enetdown : Nat := 50
def enobufs : Nat := 55
def ehostdown : Nat := 64
def ehostunreach : Nat := 65

def afLink : Nat := 18
def mtData : Nat := 2
def ifqMaxlen : Nat := 50
def sizeofEtherHdr : Nat := 14
def sizeofIpArp : Nat := 28
def sizeofSockaddrDl : Nat := 20
def arphrdEther : UInt16 := 1
def arpopRequest : UInt16 := 1
def ethertypeIp : UInt16 := 0x0800
def ethertypeArp : UInt16 := 0x0806

abbrev Mac := Vector UInt8 6

def etherBroadaddr : Mac := Vector.replicate 6 0xff

def macAt (mem : Memory) (a : Nat) : Mac := Vector.ofFn (fun i => mem (a + i))

def etherMapIpMulticast (addr : UInt32) : Mac :=
  let byte := fun i => (bytes32 addr).getD i 0
  (#v[0x01, 0x00, 0x5e, byte 1 &&& 0x7f, byte 2, byte 3])

inductive IfOutput where
  | ether
  | loop
deriving DecidableEq, Repr

structure Ifnet where
  output : IfOutput
  up : Bool
  running : Bool
  noarp : Bool
  simplex : Bool
  mtu : Nat
  maxlen : Nat
  sndq : List Chain
  ethAddr : Mac

structure SockaddrDl where
  len : Nat
  family : Nat
  alen : Nat
  lladdr : Mac
deriving DecidableEq

/-- A route, with its `RTF_` bits and the address of its `rt_ifa`. Routes, interfaces and ARP
    entries are known by their addresses. -/
structure Rtentry where
  up : Bool
  gateway : Bool
  reject : Bool
  llinfo : Bool
  permanentArp : Bool
  expire : Nat
  key : UInt32
  ifp : Nat
  ifa : UInt32
  sdl : SockaddrDl
  gwroute : Option Nat
  rtLlinfo : Option Nat
deriving DecidableEq

structure LlinfoArp where
  rt : Option Nat
  hold : Chain
  asked : Nat

structure InIfaddr where
  ifp : Nat
  addr : UInt32
deriving DecidableEq, Repr

structure ArpLog where
  given : List Chain
  resolved : List Chain
  refused : List Chain
  displaced : List Chain
  passed : List Chain

/-- The state of the network code. `sent` are the packets drivers have dequeued, `log` only
    records what has happened. -/
structure Stack where
  pool : Pool
  ifps : List Nat
  ifnet : Nat → Ifnet
  lo0 : Nat
  rtentry : Nat → Rtentry
  las : List Nat
  la : Nat → LlinfoArp
  ipintrq : List Chain
  inIfaddrlist : List InIfaddr
  sent : List Chain
  log : ArpLog

/-- What a call finds outside of these files: the route `__rt_alloc` returns for an address (an
    entry it clones is already in place), the addresses the `ifa_` functions find, and how many
    packets of its queue a driver's `if_start` dequeues. -/
structure Env where
  rtAlloc : UInt32 → Bool → Option Nat
  ifaIfwithdstaddr : UInt32 → Option InIfaddr
  ifaIfwithnet : UInt32 → Option InIfaddr
  ifaIfwithaddr : UInt32 → Option InIfaddr
  ifStart : List Chain → Nat

inductive Sockaddr where
  | inet (addr : UInt32)
  | unspec (dst : Mac) (pro : UInt16)
  | other (family : Nat)
deriving DecidableEq

namespace Stack

def setPool (S : Stack) (P : Pool) : Stack := { S with pool := P }

def setIf (S : Stack) (ifp : Nat) (f : Ifnet → Ifnet) : Stack :=
  { S with ifnet := Function.update S.ifnet ifp (f (S.ifnet ifp)) }

def setRt (S : Stack) (rt : Nat) (f : Rtentry → Rtentry) : Stack :=
  { S with rtentry := Function.update S.rtentry rt (f (S.rtentry rt)) }

def setLa (S : Stack) (la : Nat) (f : LlinfoArp → LlinfoArp) : Stack :=
  { S with la := Function.update S.la la (f (S.la la)) }

def setLog (S : Stack) (f : ArpLog → ArpLog) : Stack := { S with log := f S.log }

def dequeue (S : Stack) (ifp n : Nat) : Stack :=
  { S.setIf ifp (fun i => { i with sndq := i.sndq.drop n }) with
    sent := S.sent ++ (S.ifnet ifp).sndq.take n }

/-- `ether_flush_if_sndq`: every `if_start` on a queue that is not empty dequeues. -/
def flush (S : Stack) (ifp : Nat) : Stack := S.dequeue ifp (S.ifnet ifp).sndq.length

def start (S : Stack) (env : Env) (ifp : Nat) : Stack := S.dequeue ifp (env.ifStart (S.ifnet ifp).sndq)

def enqueue (S : Stack) (ifp : Nat) (m : Chain) : Stack :=
  S.setIf ifp (fun i => { i with sndq := i.sndq ++ [m] })

end Stack

def setMem (S : Stack) (mem : Memory) : Stack := S.setPool { S.pool with mem }

def freeing (A : Arena) (S : Stack) (m : Chain) (code : Nat) : Option (Nat × Stack) :=
  match mbufFreem A S.pool m with
  | none => none
  | some P => some (code, S.setPool P)

def etherHdr (dst src : Mac) (pro : UInt16) : List UInt8 := dst.toList ++ src.toList ++ bytes16 pro

def etherSend (A : Arena) (env : Env) (S : Stack) (ifp : Nat) (m : Chain) (macaddr : Mac)
    (ethertype : UInt16) : Option (Nat × Stack) :=
  match mbufReserve A S.pool m sizeofEtherHdr with
  | none => none
  | some ([], P) => some (enobufs, S.setPool P)
  | some (first :: rest, P) =>
    let header := etherHdr macaddr (S.ifnet ifp).ethAddr ethertype
    let S := S.setPool { P with mem := write P.mem first.data header }
    if (S.ifnet ifp).sndq.length ≥ (S.ifnet ifp).maxlen then
      freeing A (S.flush ifp) (first :: rest) enobufs
    else some (0, (S.enqueue ifp (first :: rest)).start env ifp)

def etherUnspec (A : Arena) (env : Env) (S : Stack) (ifp : Nat) (m : Chain) (macaddr : Mac)
    (ethertype : UInt16) : Option (Nat × Stack) :=
  if ¬ (S.ifnet ifp).up then some (enetdown, S) else etherSend A env S ifp m macaddr ethertype

def ipArp (op : UInt16) (sha : Mac) (spa : UInt32) (dha : Mac) (dpa : UInt32) : List UInt8 :=
  bytes16 (htons arphrdEther) ++ bytes16 (htons ethertypeIp) ++ [6, 4] ++ bytes16 (htons op) ++
    sha.toList ++ bytes32 spa ++ dha.toList ++ bytes32 dpa

def arprequest (A : Arena) (env : Env) (S : Stack) (ifp : Nat) (sip tip : UInt32) (macaddr : Mac) :
    Option Stack :=
  match mbufGetpkt A S.pool mtData with
  | (none, P) => some (S.setPool P)
  | (some m, P) =>
    let m := { m with
      len := sizeofIpArp
      pkthdr := { m.pkthdr with mpLen := sizeofIpArp }
      data := m.data + (mhlen - sizeofIpArp) / 4 * 4 }
    let request := ipArp arpopRequest macaddr sip (Vector.replicate 6 0) tip
    let S := S.setPool { P with mem := write P.mem m.data request }
    match etherUnspec A env S ifp [m] etherBroadaddr (htons ethertypeArp) with
    | none => none
    | some (_, S) => some S

def arplookup (env : Env) (S : Stack) (addr : UInt32) (report : Bool) : Option Nat :=
  match env.rtAlloc addr report with
  | none => none
  | some rt =>
    let rt := S.rtentry rt
    if rt.gateway ∨ ¬ rt.llinfo ∨ rt.sdl.family ≠ afLink ∨ rt.sdl.len < sizeofSockaddrDl then none
    else rt.rtLlinfo

/-- The entry `arplookup` finds, with the route it belongs to. -/
def arpLooked (env : Env) (S : Stack) (dst : UInt32) : Option (Nat × Nat) :=
  match arplookup env S dst true with
  | none => none
  | some la =>
    match (S.la la).rt with
    | none => none
    | some rt => some (la, rt)

/-- The link information `arpresolve` works with: the ARP entry and its route. -/
def arpEntry (env : Env) (S : Stack) (dst : UInt32) (rt : Option Nat) : Option (Nat × Nat) :=
  match rt with
  | none => arpLooked env S dst
  | some r =>
    if (S.rtentry r).llinfo then
      match (S.rtentry r).rtLlinfo with
      | none => none
      | some la => some (la, r)
    else arpLooked env S dst

def SockaddrDl.mac (sdl : SockaddrDl) : Mac :=
  Vector.ofFn (fun i => if i.val < sdl.alen then sdl.lladdr.get i else 0)

/-- The test of `arpresolve` for an address it can use. -/
def Rtentry.resolved (rt : Rtentry) : Bool :=
  rt.expire = 0 ∧ rt.sdl.family = afLink ∧ rt.sdl.alen ≠ 0

/-- `arpresolve`: the address on success, nothing where it returns -1. -/
def arpresolve (A : Arena) (env : Env) (S : Stack) (ifp : Nat) (dst : UInt32) (m : Chain)
    (rt : Option Nat) : Option (Option Mac × Stack) :=
  match m with
  | [] => none
  | first :: rest =>
    let S := S.setLog (fun log => { log with given := log.given ++ [first :: rest] })
    let resolves := fun (mac : Mac) =>
      some (some mac, S.setLog (fun log => { log with resolved := log.resolved ++ [first :: rest] }))
    let refuses :=
      match mbufFreem A S.pool (first :: rest) with
      | none => none
      | some P => some (none,
          (S.setPool P).setLog (fun log => { log with refused := log.refused ++ [first :: rest] }))
    if first.flags.bcast then resolves etherBroadaddr
    else if first.flags.mcast then resolves (etherMapIpMulticast dst)
    else
      match arpEntry env S dst rt with
      | none => refuses
      | some (la, rt) =>
        if (S.rtentry rt).resolved then resolves (S.rtentry rt).sdl.mac
        else if (S.ifnet ifp).noarp then refuses
        else
          let held := (S.la la).hold
          match mbufFreem A S.pool held with
          | none => none
          | some P =>
            let S := (S.setPool P).setLog (fun log =>
              { log with displaced := log.displaced ++ if held = [] then [] else [held] })
            let S := S.setLa la (fun la => { la with hold := first :: rest })
            if (S.rtentry rt).expire ≠ 0 then
              let S := S.setRt rt (fun rt => { rt with reject := false })
              match arprequest A env S ifp (S.rtentry rt).ifa dst (S.ifnet ifp).ethAddr with
              | none => none
              | some S => some (none, S)
            else some (none, S)

def Sockaddr.route (env : Env) (dst : Sockaddr) : Option Nat :=
  match dst with
  | .inet addr => env.rtAlloc addr true
  | _ => none

def gatewayRoute (env : Env) (S : Stack) (dst : Sockaddr) (rt : Nat) : Option Nat × Stack :=
  (dst.route env, S.setRt rt (fun rt => { rt with gwroute := dst.route env }))

def nextRoute (env : Env) (S : Stack) (dst : Sockaddr) (rt0 : Nat) : Option Nat × Stack :=
  if (S.rtentry rt0).gateway then
    match (S.rtentry rt0).gwroute with
    | none => gatewayRoute env S dst rt0
    | some rt => if (S.rtentry rt).up then (some rt, S) else gatewayRoute env S dst rt0
  else (some rt0, S)

def etherRoute (env : Env) (S : Stack) (dst : Sockaddr) (rt0 : Option Nat) :
    Except Nat (Option Nat) × Stack :=
  match rt0 with
  | none => (.ok none, S)
  | some rt0 =>
    match (if (S.rtentry rt0).up then some rt0 else dst.route env) with
    | none => (.error ehostunreach, S)
    | some rt0 =>
      match nextRoute env S dst rt0 with
      | (none, S) => (.error ehostunreach, S)
      | (some rt, S) =>
        if (S.rtentry rt).reject ∧ (S.rtentry rt).expire = 0 then
          (.error (if rt = rt0 then ehostdown else ehostunreach), S)
        else (.ok (some rt), S)

def looutput (S : Stack) (ifp : Nat) (m : Chain) (sa : Sockaddr) : Option (Nat × Stack) :=
  if ¬ ((S.ifnet ifp).up ∧ (S.ifnet ifp).running) then some (enetdown, S)
  else
    match m with
    | [] => none
    | first :: rest =>
      if ¬ first.flags.pkthdr then none
      else
        let first := { first with pkthdr := { first.pkthdr with mpRecvif := ifp } }
        match sa with
        | .inet _ =>
          if S.ipintrq.length ≥ ifqMaxlen then some (enobufs, S)
          else some (0, { S with ipintrq := S.ipintrq ++ [first :: rest] })
        | _ => some (eafnosupport, S)

/-- The copy of a broadcast packet that `ether_output` gives to `lo0`; what `looutput` returns is
    not looked at. -/
def loopCopy (A : Arena) (S : Stack) (ifp : Nat) (m : Chain) (dst : Sockaddr) : Option Stack :=
  match m with
  | [] => none
  | first :: rest =>
    if first.flags.bcast ∧ (S.ifnet ifp).simplex then
      match mbufCopy A S.pool (first :: rest) 0 mCopyall with
      | none => none
      | some ([], P) => some (S.setPool P)
      | some (lo :: more, P) =>
        match looutput (S.setPool P) S.lo0 (lo :: more) dst with
        | none => none
        | some (_, S) => some S
    else some S

def etherOutput (A : Arena) (env : Env) (S : Stack) (ifp : Nat) (m : Chain) (dst : Sockaddr)
    (rt0 : Option Nat) : Option (Nat × Stack) :=
  if ¬ (S.ifnet ifp).up then some (enetdown, S)
  else
    match etherRoute env S dst rt0 with
    | (.error code, S) => freeing A S m code
    | (.ok rt, S) =>
      match dst with
      | .inet addr =>
        match arpresolve A env S ifp addr m rt with
        | none => none
        | some (none, S) => some (0, S)
        | some (some macaddr, S) =>
          match loopCopy A S ifp m (.inet addr) with
          | none => none
          | some S => etherSend A env S ifp m macaddr (htons ethertypeIp)
      | .unspec macaddr ethertype => etherSend A env S ifp m macaddr ethertype
      | .other _ => freeing A S m eafnosupport

def ifOutput (A : Arena) (env : Env) (S : Stack) (ifp : Nat) (m : Chain) (dst : Sockaddr)
    (rt : Option Nat) : Option (Nat × Stack) :=
  match (S.ifnet ifp).output with
  | .ether => etherOutput A env S ifp m dst rt
  | .loop => looutput S ifp m dst

end Embryo.Net
