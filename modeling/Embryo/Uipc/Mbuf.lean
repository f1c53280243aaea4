import Embryo.Kmem.Model
import Embryo.Machine.Bytes
import Embryo.Machine.Loop
import Embryo.Machine.Region

namespace Embryo.Uipc

open Embryo.Machine
open Embryo.Kmem (Arena kmemMalloc kmemFree kmemAlloc kmemSize clBytes)

def msize : Nat := 128
def sizeofMHdr : Nat := 20
def sizeofPkthdr : Nat := 8
def mlen : Nat := msize - sizeofMHdr
def mhlen : Nat := mlen - sizeofPkthdr
def mclShift : Nat := 11
def mclBytes : Nat := 2^mclShift
def mCopyall : Nat := 10000000
def sizeofLong : Nat := 4

structure Flags where
  pkthdr : Bool
  ext : Bool
  eor : Bool
  bcast : Bool
  mcast : Bool
deriving DecidableEq, Repr

def noFlags : Flags := ⟨false, false, false, false, false⟩

/-- `flags & M_CPOYFLAGS`. -/
def Flags.copied (f : Flags) : Flags := ⟨f.pkthdr, false, f.eor, false, false⟩

structure Pkthdr where
  mpLen : Nat
  mpRecvif : Nat
deriving DecidableEq, Repr

structure MExt where
  meBuf : Nat
  meSize : Nat
  meFree : Nat
  meRef : Nat
deriving DecidableEq, Repr

/-- One mbuf, by its address and its fields. `m_next` is its place in a `Chain`. -/
structure Mbuf where
  addr : Nat
  data : Nat
  len : Nat
  flags : Flags
  type : Nat
  pkthdr : Pkthdr
  ext : MExt
deriving DecidableEq, Repr

abbrev Chain := List Mbuf

def Mbuf.dat (m : Mbuf) : Nat := m.addr + sizeofMHdr
def Mbuf.pktdat (m : Mbuf) : Nat := m.addr + sizeofMHdr + sizeofPkthdr
def Mbuf.datEnd (m : Mbuf) : Nat := m.addr + msize

structure Mbufstats where
  nmcl : Nat
  freemcl : Nat
  mtypes : Nat → Nat

structure Stale where
  len : Nat
  pkthdr : Pkthdr
  ext : MExt
deriving DecidableEq, Repr

/-- The allocator below, the memory of clusters and mbuf buffers, the words found in a block
    when it becomes an mbuf, and the variables of `uipc_mbuf.c`. The last three fields only
    record what has happened: the clusters carved and the mbufs taken and freed. -/
structure Pool where
  kmem : Kmem.State
  mem : Memory
  stale : Nat → Stale
  mclrefcnt : Nat
  refcnt : Nat → Int
  mclfree : Nat
  mbstats : Mbufstats
  carved : List Nat
  taken : List Nat
  freed : List Nat

def mtocl (A : Arena) (c : Nat) : Nat := wsub c A.kmembase / 2^mclShift

def refTable : Nat := kmemSize / mclBytes
def refEntries : Nat := refTable / sizeofLong

/-- `mclrefcnt[i] += d`. The result is `none` when the entry lies outside the table. -/
def Pool.count (P : Pool) (i : Nat) (d : Int) : Option Pool :=
  if i < refEntries then some { P with refcnt := Function.update P.refcnt i (P.refcnt i + d) } else none

def initial (left : Stale) (p type : Nat) (pkt : Bool) : Mbuf where
  addr := p
  data := if pkt then p + sizeofMHdr + sizeofPkthdr else p + sizeofMHdr
  len := left.len
  flags := { noFlags with pkthdr := pkt }
  type := type
  pkthdr := left.pkthdr
  ext := left.ext

def took (P : Pool) (k : Kmem.State) (p type : Nat) : Pool :=
  { P with
    kmem := k
    mbstats := { P.mbstats with
      mtypes := Function.update P.mbstats.mtypes type (wrap (P.mbstats.mtypes type + 1)) }
    taken := p :: P.taken }

def mget (A : Arena) (P : Pool) (type : Nat) (pkt : Bool) : Option Mbuf × Pool :=
  let (p, k) := kmemMalloc A P.kmem msize
  if p = 0 then (none, { P with kmem := k })
  else (some (initial (P.stale p) p type pkt), took P k p type)

/-- `mbuf_get` and `mbuf_getpkt`, where it returns; `mbuf_reclaim` frees nothing before the second try. -/
def mbufTake (A : Arena) (P : Pool) (type : Nat) (pkt : Bool) : Option Mbuf × Pool :=
  if type ≥ 256 then (none, P)
  else
    match mget A P type pkt with
    | (some m, P) => (some m, P)
    | (none, P) => mget A P type pkt

def mbufGet (A : Arena) (P : Pool) (type : Nat) : Option Mbuf × Pool := mbufTake A P type false
def mbufGetpkt (A : Arena) (P : Pool) (type : Nat) : Option Mbuf × Pool := mbufTake A P type true

/-- `mbuf_retrypkt` defines `mbuf_retry` away for its try, where it calls itself: without memory it
    does so without end. -/
def mbufGetpktReturns (A : Arena) (P : Pool) (type : Nat) : Bool :=
  type ≥ 256 ∨ (mbufGetpkt A P type).1.isSome

def pushClusters : Nat → Nat → Pool → Pool
  | 0, _, P => P
  | n + 1, p, P => pushClusters n (p + mclBytes) { P with
      mem := store32 P.mem p P.mclfree
      mclfree := p
      mbstats := { P.mbstats with freemcl := wrap (P.mbstats.freemcl + 1) }
      carved := p :: P.carved }

def mbufClalloc (A : Arena) (P : Pool) (ncl : Nat) : Nat × Pool :=
  let nmcl := ncl * (clBytes / mclBytes)
  let (p, k) := kmemAlloc A P.kmem (ncl * clBytes)
  if p = 0 then (1, { P with kmem := k })
  else
    let P := pushClusters nmcl p { P with kmem := k }
    (0, { P with mbstats := { P.mbstats with nmcl := wrap (P.mbstats.nmcl + nmcl) } })

def initTable (A : Arena) (P : Pool) : Option Pool :=
  let (p, k) := kmemMalloc A P.kmem refTable
  if p = 0 then none
  else some { P with
    kmem := k
    mclrefcnt := p
    refcnt := fun i => if i < refEntries then 0 else P.refcnt i }

def mbufinit (A : Arena) (P : Pool) : Option (Nat × Pool) :=
  match initTable A P with
  | none => none
  | some P =>
    match mbufClalloc A P 1 with
    | (0, P) => some (0, P)
    | (_, P) => some (if P.mclfree = 0 then 1 else 0, P)

/-- `MCLALLOC`; the cluster is `none` when the variable it is to go to is left alone. -/
def mclalloc (A : Arena) (P : Pool) : Option (Option Nat × Pool) :=
  let P := if P.mclfree = 0 then (mbufClalloc A P 1).2 else P
  if P.mclfree ≠ 0 then
    match P.count (mtocl A P.mclfree) 1 with
    | none => none
    | some P => some (some P.mclfree, { P with
        mbstats := { P.mbstats with freemcl := wsub P.mbstats.freemcl 1 }
        mclfree := load32 P.mem P.mclfree })
  else some (none, P)

def mclfree (A : Arena) (P : Pool) (p : Nat) : Option Pool :=
  match P.count (mtocl A p) (-1) with
  | none => none
  | some P =>
    if P.refcnt (mtocl A p) = 0 then some { P with
      mbstats := { P.mbstats with freemcl := wrap (P.mbstats.freemcl + 1) }
      mem := store32 P.mem p P.mclfree
      mclfree := p }
    else some P

def Mbuf.extend (m : Mbuf) (buf : Nat) : Mbuf :=
  { m with
    flags := { m.flags with ext := true }
    data := buf
    ext := ⟨buf, mclBytes, 0, 0⟩ }

/-- `mbuf_getext`, with `MCLGET` in it: the result code, and the mbuf as it is afterwards. -/
def mbufGetext (A : Arena) (P : Pool) (m : Mbuf) : Option (Nat × Mbuf × Pool) :=
  match mclalloc A P with
  | none => none
  | some (cluster, P) =>
    let buf := cluster.getD m.ext.meBuf
    let m := if buf ≠ 0 then m.extend buf else { m with ext := { m.ext with meBuf := buf } }
    some (if m.flags.ext then 0 else 1, m, P)

/-- `--mbstats.ms_mtypes[type]`. -/
def Pool.untype (P : Pool) (type : Nat) : Pool :=
  { P with mbstats := { P.mbstats with
    mtypes := Function.update P.mbstats.mtypes type (wsub (P.mbstats.mtypes type) 1) } }

/-- `mbuf_free`. An external buffer with its own `me_free` is outside this model. -/
def mbufFree (A : Arena) (P : Pool) (m : Mbuf) : Option Pool :=
  let P := P.untype m.type
  let released :=
    if m.flags.ext then (if m.ext.meFree ≠ 0 then none else mclfree A P m.ext.meBuf) else some P
  match released with
  | none => none
  | some P =>
    match kmemFree A P.kmem m.addr with
    | none => none
    | some k => some { P with kmem := k, freed := m.addr :: P.freed }

def mbufFreem (A : Arena) (P : Pool) : Chain → Option Pool
  | [] => some P
  | m :: n =>
    match mbufFree A P m with
    | none => none
    | some P => mbufFreem A P n

def copyPkthdr (d s : Mbuf) : Mbuf :=
  { d with
    pkthdr := { d.pkthdr with mpLen := s.pkthdr.mpLen }
    flags := s.flags.copied
    data := d.pktdat }

def Mbuf.room (m : Mbuf) : Region :=
  if m.flags.ext then ⟨m.ext.meBuf, mclBytes⟩
  else if m.flags.pkthdr then ⟨m.pktdat, mhlen⟩
  else ⟨m.dat, mlen⟩

/-- `bcopy` of `n` bytes to `dst` in the buffer of `m`; `none` when they do not fit into it. -/
def Pool.fill (P : Pool) (m : Mbuf) (src dst n : Nat) : Option Pool :=
  if n = 0 ∨ (m.room.addr ≤ dst ∧ dst + n ≤ m.room.stop) then
    some { P with mem := bcopy P.mem src dst n }
  else none

end Embryo.Uipc
