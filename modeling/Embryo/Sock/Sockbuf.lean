import Embryo.Uipc.Chain

namespace Embryo.Sock

open Embryo.Machine Embryo.Uipc
open Embryo.Kmem (Arena)

def mtSoname : Nat := 1
def mtControl : Nat := 3
def mtOobdata : Nat := 4
def sbMax : Nat := 256 * 1024

inductive Ptr where
  | null
  | mbuf (m : Mbuf) (next nextpkt : Ptr)
deriving DecidableEq, Repr

namespace Ptr

def chain : Ptr → Chain
  | null => []
  | mbuf m next _ => m :: next.chain

def records : Ptr → List Chain
  | null => []
  | mbuf m next nextpkt => (m :: next.chain) :: nextpkt.records

/-- `m->m_nextpkt = nextpkt`, guarded by `m != NULL`. -/
def setNextpkt : Ptr → Ptr → Ptr
  | null, _ => null
  | mbuf m next _, nextpkt => mbuf m next nextpkt

def linkBehind : Ptr → Ptr → Ptr
  | null, data => data
  | mbuf m next nextpkt, data => mbuf m (next.linkBehind data) nextpkt

def queueBehind : Ptr → Ptr → Ptr
  | null, record => record
  | mbuf m next nextpkt, record => mbuf m next (nextpkt.queueBehind record)

end Ptr

structure Sockbuf where
  cc : Nat
  hiwat : Nat
  lowat : Nat
  mbcnt : Nat
  mbmax : Nat
  mb : Ptr
deriving DecidableEq, Repr

def storage (m : Mbuf) : Nat := msize + if m.flags.ext then m.ext.meSize else 0

def sbspace (sb : Sockbuf) : Nat := min (wsub sb.hiwat sb.cc) (wsub sb.mbmax sb.mbcnt)

def sballoc (sb : Sockbuf) (m : Mbuf) : Sockbuf :=
  { sb with cc := wrap (sb.cc + m.len), mbcnt := wrap (sb.mbcnt + storage m) }

def sbfree (sb : Sockbuf) (m : Mbuf) : Sockbuf :=
  { sb with cc := wsub sb.cc (wrap m.len), mbcnt := wsub sb.mbcnt (wrap (storage m)) }

def sbreserve (sb : Sockbuf) (sz : Nat) : Option Sockbuf :=
  if sz = 0 ∨ sz > sbMax * mclBytes / (msize + mclBytes) then none
  else some { sb with
    hiwat := sz
    mbmax := min (wrap (sz * 2)) sbMax
    lowat := min sb.lowat sz }

def sbrelease (sb : Sockbuf) : Sockbuf := { sb with hiwat := 0, lowat := 0 }

/-- `soreserve` on the send and the receive buffer: both as they are afterwards, and whether it
    succeeded. -/
def soreserve (snd rcv : Sockbuf) (sndsz rcvsz : Nat) : Bool × Sockbuf × Sockbuf :=
  match sbreserve snd sndsz with
  | none => (false, snd, rcv)
  | some snd =>
    match sbreserve rcv rcvsz with
    | none => (false, sbrelease snd, rcv)
    | some rcv =>
      let sndLowat := if snd.lowat = 0 then mclBytes else snd.lowat
      (true, { snd with lowat := min sndLowat snd.hiwat },
        { rcv with lowat := if rcv.lowat = 0 then 1 else rcv.lowat })

def dropChain (A : Arena) : Chain → Pool → Sockbuf → Option (Pool × Sockbuf)
  | [], P, sb => some (P, sb)
  | m :: nm, P, sb =>
    match mbufFree A P m with
    | none => none
    | some P => dropChain A nm P (sbfree sb m)

def sbdroprecord (A : Arena) (P : Pool) (sb : Sockbuf) : Option (Pool × Sockbuf) :=
  match sb.mb with
  | .null => some (P, sb)
  | .mbuf m next nextpkt => dropChain A (m :: next.chain) P { sb with mb := nextpkt }

def mpLenOf (data : Chain) : Nat :=
  match data with
  | [] => 0
  | first :: _ => first.pkthdr.mpLen

def lacksPkthdr (data : Chain) : Bool :=
  match data with
  | [] => false
  | first :: _ => !first.flags.pkthdr

def recordSpace (saLen : Nat) (data control : Chain) : Nat :=
  control.foldl (fun space n => wrap (space + n.len)) (wrap (saLen + mpLenOf data))

/-- `sbappendaddr`, for the `sockaddr` at `addr`, whose first byte is `sa_len`. The result is
    `none` when memory outside the new mbuf is written. -/
def sbappendaddr (A : Arena) (P : Pool) (sb : Sockbuf) (addr : Nat) (data control : Ptr) :
    Option (Bool × Pool × Sockbuf) :=
  let saLen := (P.mem addr).toNat
  if lacksPkthdr data.chain then some (false, P, sb)
  else if recordSpace saLen data.chain control.chain > sbspace sb then some (false, P, sb)
  else if saLen > mlen then some (false, P, sb)
  else
    match mbufGet A P mtSoname with
    | (none, P) => some (false, P, sb)
    | (some m, P) =>
      let m := { m with len := saLen }
      match P.fill m addr m.data saLen with
      | none => none
      | some P =>
        let record := Ptr.mbuf m (control.linkBehind data) .null
        let sb := record.chain.foldl sballoc sb
        some (true, P, { sb with mb := sb.mb.queueBehind record })

end Embryo.Sock
