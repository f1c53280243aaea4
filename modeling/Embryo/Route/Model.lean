import Embryo.Machine.Heap
import Embryo.Machine.Word
import Embryo.Radix.Order

namespace Embryo.Route

open Embryo.Machine
open Embryo.Radix (Caddr Tables Added rnAddroute setLeaf maskOf sizeofRadixNode)

def eexist : Nat := 17
def einval : Nat := 22
def eafnosupport : Nat := 47
def enetunreach : Nat := 51
def enobufs : Nat := 55

def afLink : UInt8 := 18
def iftEther : UInt8 := 2
def loopmtu : Nat := 32768
def ethAddrLen : Nat := 6
def sizeofRtentry : Nat := 92
def sizeofSockaddrDl : Nat := 20
def sizeofLlinfoArp : Nat := 20
def sizeofLong : Nat := 4

def roundup (x : Nat) : Nat := wrap (1 + (wsub x 1 ||| (sizeofLong - 1)))

structure RtFlags where
  up : Bool
  host : Bool
  gateway : Bool
  reject : Bool
  cloning : Bool
  llinfo : Bool
  permanentArp : Bool
deriving DecidableEq, Repr

structure RtMetrics where
  mtu : Nat
  expire : Nat

structure Rtentry where
  ifp : Nat
  ifa : Nat
  gateway : Nat
  genmask : Option Caddr
  gwroute : Nat
  parent : Nat
  llinfo : Nat
  refcnt : Nat
  flags : RtFlags
  rmx : RtMetrics

structure Ifnet where
  type : UInt8
  index : UInt16
  ethAddr : List UInt8

inductive Rtrequest where
  | arp
  | lo
deriving DecidableEq

structure Ifaddr where
  addr : Caddr
  ifp : Nat
  refcnt : Nat
  rtrequest : Option Rtrequest

/-- The routing memory. The `rtentry`s, addresses and interfaces are found at their addresses, and
    `llinfo` is the list of the `llinfo_arp`s, each with its `la_rt`. -/
structure Routes where
  heap : Heap
  tables : Tables
  rts : Nat → Rtentry
  ifaddrs : Nat → Ifaddr
  ifnets : Nat → Ifnet
  lo0 : Nat
  llinfo : List (Nat × Nat)

inductive Req where
  | add
  | delete
  | resolve
deriving DecidableEq

/-- `rt_table`, by the tops of the trees, and what `__rt_alloc` does for the address at a pointer. -/
structure Env where
  rtTable : UInt8 → Option Nat
  rtAlloc : Routes → Nat → Nat × Routes

namespace Routes

def modify (w : Routes) (rt : Nat) (f : Rtentry → Rtentry) : Routes :=
  { w with rts := Function.update w.rts rt (f (w.rts rt)) }

@[simp] theorem modify_rts (w : Routes) (rt : Nat) (f : Rtentry → Rtentry) :
    (w.modify rt f).rts rt = f (w.rts rt) :=
  Function.update_self _ _ _

@[simp] theorem modify_heap (w : Routes) (rt : Nat) (f : Rtentry → Rtentry) :
    (w.modify rt f).heap = w.heap := rfl

@[simp] theorem modify_tables (w : Routes) (rt : Nat) (f : Rtentry → Rtentry) :
    (w.modify rt f).tables = w.tables := rfl

def caddr (w : Routes) (p : Nat) : Caddr := ⟨p, fun i => w.heap.mem (p + i)⟩

def rtKey (w : Routes) (rt : Nat) : Nat := ((w.tables.nodes rt).leaf?.map fun leaf => leaf.key.addr).getD 0

/-- `rt->rt_nodes->rn_key = p`; the first of the two nodes is a leaf. -/
def setKey (w : Routes) (rt p : Nat) : Option Routes :=
  (w.tables.nodes rt).leaf?.map fun leaf =>
    { w with tables := { w.tables with nodes := setLeaf w.tables.nodes rt { leaf with key := w.caddr p } } }

end Routes

/-- `rt_setgate` from where `new` is the place of key and gateway, and `old` the place to copy the
    key from. -/
def setgateEnd (E : Env) (w : Routes) (rt glen dlen new old : Nat) (gate : Nat → UInt8) :
    Option (Bool × Routes) :=
  let heap := w.heap.store (new + dlen) ((List.range glen).map gate)
  let w := { w with heap }.modify rt fun r => { r with gateway := new + dlen }
  let w := if old = 0 then w else { w with heap := (w.heap.store new (bytes w.heap.mem old dlen)).free old }
  let w := w.modify rt fun r => { r with gwroute := 0 }
  let w :=
    if (w.rts rt).flags.gateway then
      let (gwroute, w) := E.rtAlloc w (w.rts rt).gateway
      w.modify rt fun r => { r with gwroute }
    else w
  (w.setKey rt new).map fun w => (true, w)

/-- `rt_setgate`, for a destination of the length `dstLen`; the result is `false` where it returns -1. -/
def rtSetgate (E : Env) (w : Routes) (rt dstLen : Nat) (gate : Nat → UInt8) : Option (Bool × Routes) :=
  let glen := roundup (gate 0).toNat
  let dlen := roundup dstLen
  let gateway := (w.rts rt).gateway
  if gateway = 0 ∨ glen > roundup (w.heap.mem gateway).toNat then
    let (new, heap) := w.heap.malloc (glen + dlen)
    if new = 0 then some (false, { w with heap })
    else setgateEnd E { w with heap } rt glen dlen new (w.rtKey rt) gate
  else setgateEnd E w rt glen dlen (w.rtKey rt) 0 gate

def char (b : UInt8) : Int := if b < 128 then b.toNat else (b.toNat : Int) - 256

def maskedBytes (src netmask : Nat → UInt8) : List UInt8 :=
  let lim := min (char (netmask 0)) (char (src 0))
  (List.range (max 2 (char (src 0)).toNat)).map fun i =>
    if i < 2 then src i else if (i : Int) < lim then src i &&& netmask i else 0

def rtMaskedcopy (h : Heap) (src : Caddr) (dst : Nat) (netmask : Caddr) : Heap :=
  h.store dst (maskedBytes src netmask)

def sinAddr (a : Nat → UInt8) : List UInt8 := [a 4, a 5, a 6, a 7]

def sdlNull (i : Nat) : UInt8 := if i = 0 then UInt8.ofNat sizeofSockaddrDl else if i = 1 then afLink else 0

def setLink (h : Heap) (gate : Nat) (ifp : Ifnet) : Heap :=
  (h.store (gate + 4) [ifp.type]).store (gate + 2) [ifp.index.toUInt8, (ifp.index >>> 8).toUInt8]

/-- The part of `arp_rtrequest` that a new host route and `RTM_RESOLVE` share. -/
def arpResolve (w : Routes) (rt gate : Nat) : Routes :=
  let r := w.rts rt
  let ifp := w.ifnets r.ifp
  let w := { w with heap := setLink w.heap gate ifp }
  if r.llinfo ≠ 0 then w
  else
    let (la, heap) := w.heap.malloc sizeofLlinfoArp
    let w := { w with heap }
    if la = 0 then w
    else
      let w := { w with llinfo := (la, rt) :: w.llinfo }.modify rt fun r =>
        { r with llinfo := la, flags := { r.flags with llinfo := true } }
      if sinAddr (w.ifaddrs r.ifa).addr = sinAddr (w.caddr (w.rtKey rt)) then
        let w := w.modify rt fun r => { r with rmx := { r.rmx with expire := 0 } }
        let lladdr := gate + 7 + (w.heap.mem (gate + 5)).toNat
        let heap := (w.heap.store (gate + 6) [UInt8.ofNat ethAddrLen]).store lladdr
          (ifp.ethAddr.take ethAddrLen)
        { w with heap }.modify rt fun r => { r with ifp := w.lo0 }
      else w

/-- Whether `RTF_CLONING` is to be set; `none` where a mask that is `NULL` is looked at. -/
def isNetwork (w : Routes) (rt : Nat) : Option Bool :=
  if (w.rts rt).flags.host then some false
  else (maskOf w.tables.nodes rt).map fun mask => sinAddr mask ≠ [0xff, 0xff, 0xff, 0xff]

def arpRtrequest (E : Env) (w : Routes) (cmd : Req) (rt : Nat) : Option Routes :=
  let gate := (w.rts rt).gateway
  if (w.rts rt).flags.gateway then some w
  else
    match cmd with
    | .delete => some w
    | .resolve => some (arpResolve w rt gate)
    | .add =>
      match isNetwork w rt with
      | none => none
      | some network =>
        let w := if network then w.modify rt fun r =>
          { r with flags := { r.flags with cloning := true } } else w
        if (w.rts rt).flags.cloning then
          match rtSetgate E w rt (w.heap.mem (w.rtKey rt)).toNat sdlNull with
          | none => none
          | some (_, w) =>
            let heap := setLink w.heap gate (w.ifnets (w.rts rt).ifp)
            some ({ w with heap }.modify rt fun r => { r with rmx := { r.rmx with expire := 1 } })
        else some (arpResolve w rt gate)

def loRtrequest (w : Routes) (rt : Nat) : Routes :=
  w.modify rt fun r => { r with rmx := { r.rmx with mtu := loopmtu } }

def zeroRtentry (flags : RtFlags) : Rtentry := ⟨0, 0, 0, none, 0, 0, 0, 0, flags, ⟨0, 0⟩⟩

/-- `rtrequest` from `makeroute` to `rnh_addaddr`: the error, the new route, and the routing memory.
    `pair` is what `kmem_zmalloc` returns for the nodes of a mask. -/
def makeroute (E : Env) (fuel : Nat) (w : Routes) (treetop : Nat) (dst : Caddr)
    (gateway : Nat → UInt8) (netmask : Option Caddr)
    (flags : RtFlags) (pair : Nat) : Option (Nat × Nat × Routes) :=
  let (rt, heap) := w.heap.malloc sizeofRtentry
  if rt = 0 then some (enobufs, 0, { w with heap })
  else
    let w := { w with heap, tables := Radix.alloc w.tables rt }.modify rt fun _ => zeroRtentry flags
    match rtSetgate E w rt (dst 0).toNat gateway with
    | none => none
    | some (false, w) => some (enobufs, 0, { w with heap := w.heap.free rt })
    | some (true, w) =>
      let ndst := w.rtKey rt
      let heap := match netmask with
        | some netmask => rtMaskedcopy w.heap dst ndst netmask
        | none => w.heap.store ndst ((List.range (dst 0).toNat).map dst)
      let w := { w with heap }
      match rnAddroute fuel w.tables (w.caddr ndst) netmask treetop rt (rt + sizeofRadixNode) pair with
      | none | some .nullMask => none
      | some (.done rn tables) =>
        let w := { w with tables }
        if rn = 0 then some (eexist, 0, { w with heap := (w.heap.free ndst).free rt }) else some (0, rt, w)

/-- The rest of it, for a route that is in the tree. `parent` is the route it is made from, which
    `RTM_RESOLVE` has. -/
def attach (E : Env) (w : Routes) (rt ifa : Nat) (req : Req) (parent : Nat) (held : Bool) : Option Routes :=
  let w :=
    { w with
      ifaddrs := Function.update w.ifaddrs ifa { w.ifaddrs ifa with refcnt := (w.ifaddrs ifa).refcnt + 1 } }
  let w := w.modify rt fun r => { r with ifa, ifp := (w.ifaddrs ifa).ifp }
  let w := if req = .resolve then w.modify rt fun r => { r with rmx := (w.rts parent).rmx, parent } else w
  let requested := match (w.ifaddrs ifa).rtrequest with
    | none => some w
    | some .arp => arpRtrequest E w req rt
    | some .lo => some (loRtrequest w rt)
  requested.map fun w => if held then w.modify rt fun r => { r with refcnt := r.refcnt + 1 } else w

/-- `rtrequest`, where `ifwithroute` is what `rt_ifwithroute` finds and `retRt` is `*ret_rt`, if
    `ret_rt` is given: the error, what `*ret_rt` is afterwards, and the routing memory. -/
def rtrequest (E : Env) (fuel : Nat) (w : Routes) (dst : Caddr) (gateway : Nat → UInt8)
    (netmask : Option Caddr) (flags : RtFlags)
    (req : Req) (ifwithroute : Option Nat) (retRt : Option Nat) (pair : Nat) :
    Option (Nat × Option Nat × Routes) :=
  match E.rtTable (dst 1) with
  | none => some (eafnosupport, retRt, w)
  | some treetop =>
    let netmask := if flags.host then none else netmask
    let made (gateway : Nat → UInt8) (netmask : Option Caddr) (flags : RtFlags) (ifa : Nat) :=
      match makeroute E fuel w treetop dst gateway netmask flags pair with
      | none => none
      | some (err, rt, w) =>
        if err ≠ 0 then some (err, retRt, w)
        else (attach E w rt ifa req (retRt.getD 0) retRt.isSome).map fun w => (0, retRt.map fun _ => rt, w)
    match req with
    | .delete => some (0, retRt, w)
    | .add =>
      match ifwithroute with
      | none => some (enetunreach, retRt, w)
      | some ifa => made gateway netmask flags ifa
    | .resolve =>
      if retRt.getD 0 = 0 then some (einval, retRt, w)
      else
        let r := w.rts (retRt.getD 0)
        let flags := { r.flags with cloning := false }
        let flags := if r.genmask.isNone then { flags with host := true } else flags
        made (fun i => w.heap.mem (r.gateway + i)) r.genmask flags r.ifa

end Embryo.Route
