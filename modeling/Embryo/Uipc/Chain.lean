import Embryo.Uipc.Mbuf

namespace Embryo.Uipc

open Embryo.Machine
open Embryo.Kmem (Arena)

def flatten (mem : Memory) (m : Chain) : List UInt8 := m.flatMap (fun m => bytes mem m.data m.len)

def total (m : Chain) : Nat := (m.map Mbuf.len).sum

/-- The first loop of `mbuf_copy`; `none` where it finds `off0` too big. -/
def skip : Chain → Nat → Option (Chain × Nat)
  | [], off => if off = 0 then some ([], 0) else none
  | m :: n, off =>
    if off = 0 then some (m :: n, 0)
    else if off < m.len then some (m :: n, off)
    else skip n (off - m.len)

/-- The new mbuf for the segment `m`: its header, its length, and its data shared or copied. -/
def copySegment (A : Arena) (P : Pool) (m n : Mbuf) (off len : Nat) (copyhdr : Bool) :
    Option (Mbuf × Pool) :=
  let n :=
    if copyhdr then
      let n := copyPkthdr n m
      { n with pkthdr := { n.pkthdr with mpLen := if len = mCopyall then n.pkthdr.mpLen else len } }
    else n
  let n := { n with len := min m.len len }
  if m.flags.ext then
    if m.ext.meRef ≠ 0 then none
    else
      match P.count (mtocl A m.ext.meBuf) 1 with
      | none => none
      | some P => some ({ n with
          data := wrap (m.data + off)
          ext := m.ext
          flags := { n.flags with ext := true } }, P)
  else
    match P.fill n (m.data + off) n.data n.len with
    | none => none
    | some P => some (n, P)

/-- The second loop of `mbuf_copy`. `top` is what has been linked so far. -/
def copyLoop (A : Arena) : Chain → Nat → Nat → Bool → Chain → Pool → Option (Chain × Pool)
  | [], _, len, _, top, P =>
    if len = 0 ∨ len = mCopyall then some (top, P)
    else
      match mbufFreem A P top with
      | none => none
      | some P => some ([], P)
  | m :: rest, off, len, copyhdr, top, P =>
    if len = 0 then some (top, P)
    else
      match mbufGet A P m.type with
      | (none, P) =>
        match mbufFreem A P top with
        | none => none
        | some P => some ([], P)
      | (some n, P) =>
        match copySegment A P m n off len copyhdr with
        | none => none
        | some (n, P) =>
          copyLoop A rest 0 (if len = mCopyall then len else len - n.len) false (top ++ [n]) P

/-- `mbuf_copy`. It reads the flags of a `NULL` chain when `off0` is 0. -/
def mbufCopy (A : Arena) (P : Pool) (m : Chain) (off0 len : Nat) : Option (Chain × Pool) :=
  match m with
  | [] => if off0 = 0 then none else some ([], P)
  | first :: rest =>
    let copyhdr := off0 = 0 ∧ first.flags.pkthdr
    match skip (first :: rest) off0 with
    | none => some ([], P)
    | some (m, off) => copyLoop A m off len copyhdr [] P

structure Pulling where
  pool : Pool
  m : Mbuf
  n : Chain
  len : Nat
  space : Nat

/-- One pass: `count` bytes move from the first mbuf of `n` to the end of `m`. -/
def pull (A : Arena) (s : Pulling) (first : Mbuf) (rest : Chain) (count : Nat) : Option Pulling :=
  match s.pool.fill s.m first.data (s.m.data + s.m.len) count with
  | none => none
  | some P =>
    let m := { s.m with len := wrap (s.m.len + count) }
    let len := wsub s.len count
    let space := wsub s.space count
    let first := { first with len := first.len - count }
    if first.len ≠ 0 then
      some ⟨P, m, { first with data := first.data + count } :: rest, len, space⟩
    else
      match mbufFree A P first with
      | none => none
      | some P => some ⟨P, m, rest, len, space⟩

/-- The body of both loops; they differ in how `count` is limited. -/
def pullPass (A : Arena) (limit : Pulling → Nat) (s : Pulling) : Option (Pass Pulling Pulling) :=
  match s.n with
  | [] => some (.leave s)
  | first :: rest =>
    if s.len = 0 then some (.leave s)
    else
      match pull A s first rest (min (limit s) first.len) with
      | none => none
      | some s => some (.again s)

def pullEnd (A : Arena) (s : Pulling) : Option (Chain × Pool) :=
  if s.len > 0 then
    match mbufFree A s.pool s.m with
    | none => none
    | some P =>
      match mbufFreem A P s.n with
      | none => none
      | some P => some ([], P)
  else some (s.m :: s.n, s.pool)

def bad (A : Arena) (P : Pool) (n : Chain) : Option (Chain × Pool) :=
  match mbufFreem A P n with
  | none => none
  | some P => some ([], P)

def Mbuf.dropPkthdr (m : Mbuf) : Mbuf := { m with flags := { m.flags with pkthdr := false } }

def pullupLimit (maxProtohdr : Nat) (s : Pulling) : Nat := min (max maxProtohdr s.len) s.space

def pullupRun (A : Arena) (maxProtohdr fuel : Nat) (P : Pool) (m : Mbuf) (n : Chain) (len : Nat) :
    Option (Chain × Pool) :=
  let space := wsub m.datEnd (wrap (m.data + m.len))
  match loop (pullPass A (pullupLimit maxProtohdr)) fuel ⟨P, m, n, len, space⟩ with
  | none => none
  | some s => pullEnd A s

def mbufPullup (A : Arena) (maxProtohdr fuel : Nat) (P : Pool) (n : Chain) (len : Nat) :
    Option (Chain × Pool) :=
  match n with
  | [] => some ([], P)
  | first :: rest =>
    if ¬ first.flags.ext ∧ wrap (first.data + len) < first.datEnd then
      pullupRun A maxProtohdr fuel P first rest (len - min len first.len)
    else if len > mhlen then bad A P (first :: rest)
    else
      match mbufGet A P first.type with
      | (none, P) => bad A P (first :: rest)
      | (some m, P) =>
        let m := { m with len := 0 }
        if first.flags.pkthdr then
          pullupRun A maxProtohdr fuel P (copyPkthdr m first) (first.dropPkthdr :: rest) len
        else pullupRun A maxProtohdr fuel P m (first :: rest) len

def pullupBigRun (A : Arena) (fuel : Nat) (P : Pool) (m : Mbuf) (n : Chain) (len : Nat) :
    Option (Chain × Pool) :=
  match loop (pullPass A Pulling.len) fuel ⟨P, m, n, len, 0⟩ with
  | none => none
  | some s => pullEnd A s

def mbufPullupBig (A : Arena) (maxProtohdr fuel : Nat) (P : Pool) (n : Chain) (len : Nat) :
    Option (Chain × Pool) :=
  match n with
  | [] => some ([], P)
  | first :: rest =>
    if len ≤ mhlen then mbufPullup A maxProtohdr fuel P (first :: rest) len
    else if first.flags.ext ∧ wrap (first.data + len) < first.ext.meBuf + mclBytes then
      pullupBigRun A fuel P first rest (len - min len first.len)
    else if len > mclBytes then bad A P (first :: rest)
    else
      match mbufGet A P first.type with
      | (none, P) => bad A P (first :: rest)
      | (some m, P) =>
        match mbufGetext A P m with
        | none => none
        | some (code, m, P) =>
          if code ≠ 0 then
            match mbufFree A P m with
            | none => none
            | some P => bad A P (first :: rest)
          else
            let m := { m with len := 0 }
            if first.flags.pkthdr then
              pullupBigRun A fuel P
                { m with pkthdr := first.pkthdr, flags := { first.flags.copied with ext := true } }
                (first.dropPkthdr :: rest) len
            else pullupBigRun A fuel P m (first :: rest) len

/-- The head branch of `mbuf_trim`: the chain, and what was left to trim at its end. -/
def trimHead : Chain → Nat → Chain × Nat
  | [], len => ([], len)
  | m :: n, len =>
    if len = 0 then (m :: n, 0)
    else if m.len ≥ len then ({ m with len := m.len - len, data := m.data + len } :: n, 0)
    else
      let (n, left) := trimHead n (len - m.len)
      ({ m with len := 0 } :: n, left)

def trimTail : Chain → Nat → Chain
  | [], _ => []
  | m :: n, count =>
    if m.len ≥ count then { m with len := count } :: n.map (fun m => { m with len := 0 })
    else m :: trimTail n (count - m.len)

def setMpLen (m : Chain) (f : Nat → Nat) : Chain :=
  match m with
  | [] => []
  | first :: rest =>
    if first.flags.pkthdr then
      { first with pkthdr := { first.pkthdr with mpLen := f first.pkthdr.mpLen } } :: rest
    else first :: rest

def mbufTrim (m : Chain) (trimlen : Nat) (tail : Bool) : Chain :=
  if tail then
    let count := wrap (total m)
    let count := count - min count trimlen
    trimTail (setMpLen m (fun _ => count)) count
  else
    let (m, left) := trimHead m trimlen
    setMpLen m (fun mpLen => if left ≠ 0 then 0 else wsub mpLen trimlen)

def leadingSpace (m : Mbuf) : Nat :=
  if m.flags.ext then 0
  else if m.flags.pkthdr then wsub m.data m.pktdat
  else wsub m.data m.dat

def reserveFront (A : Arena) (P : Pool) (first : Mbuf) (rest : Chain) (len : Nat) :
    Option (Chain × Pool) :=
  match mbufGet A P first.type with
  | (none, P) => bad A P (first :: rest)
  | (some new, P) =>
    let (new, first) :=
      if first.flags.pkthdr then (copyPkthdr new first, first.dropPkthdr) else (new, first)
    let new := if len < mhlen then { new with data := new.data + (mhlen - len) / 4 * 4 } else new
    some ({ new with len := len } :: first :: rest, P)

def mbufReserve (A : Arena) (P : Pool) (m : Chain) (len : Nat) : Option (Chain × Pool) :=
  match m with
  | [] => some ([], P)
  | first :: rest =>
    if leadingSpace first ≥ len then
      some (setMpLen ({ first with data := wsub first.data len, len := wrap (first.len + len) } :: rest)
        (fun mpLen => wrap (mpLen + len)), P)
    else if len > mhlen then bad A P (first :: rest)
    else
      match reserveFront A P first rest len with
      | none => none
      | some (m, P) => some (setMpLen m (fun mpLen => wrap (mpLen + len)), P)

end Embryo.Uipc
