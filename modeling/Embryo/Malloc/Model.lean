import Embryo.Machine.Ring
import Embryo.Machine.Word

namespace Embryo.Malloc

open Embryo.Machine

/-- `union header`: the link to the next free block and the block length in headers. -/
structure Header where
  ptr : Nat
  size : Nat
deriving DecidableEq, Repr

def sizeofHeader : Nat := 8
def nalloc : Nat := 128

/-- Where the linker and the board put things: the static header `base`, and the heap
    range that `heap_init` gives to `md_sbrk`. Addresses are byte addresses. -/
structure Layout where
  base : Nat
  heapBase : Nat
  heapTop : Nat
  base_pos : 0 < base
  base_lt : base < 2^32
  heap_pos : 0 < heapBase
  heap_le : heapBase ≤ heapTop
  top_lt : heapTop < 2^32
  apart : base + sizeofHeader < heapBase ∨ heapTop < base

/-- The allocator's variables and the headers stored in memory. A zero pointer is `NULL`. -/
structure State where
  mem : Nat → Header
  allocp : Nat
  mdAllocp : Nat

def State.setHeader (s : State) (a : Nat) (h : Header) : State :=
  { s with mem := Function.update s.mem a h }

/-- `p + n` on a `HEADER *`. -/
def headerAdd (p n : Nat) : Nat := wrap (p + sizeofHeader * n)

def unitsOf (nbytes : Nat) : Nat :=
  wrap (wrap (nbytes + sizeofHeader - 1) / sizeofHeader + 1)

def batchOf (nunits : Nat) : Nat :=
  wrap (wrap (nunits + nalloc - 1) / nalloc * nalloc)

def mdSbrk (L : Layout) (s : State) (size : Nat) : Nat × State :=
  if wrap (s.mdAllocp + size) ≤ L.heapTop then
    (s.mdAllocp, { s with mdAllocp := wrap (s.mdAllocp + size) })
  else (0, s)

/-- One pass of the search loop of `free`, at the list node `q`. -/
def freePass (mem : Nat → Header) (p q : Nat) : Option (Pass Nat Nat) :=
  if p > q ∧ p < (mem q).ptr then some (.leave q)
  else if (mem q).ptr ≤ q ∧ (p > q ∨ p < (mem q).ptr) then some (.leave q)
  else some (.again (mem q).ptr)

def joinUpper (mem : Nat → Header) (q p : Nat) : Nat → Header :=
  if headerAdd p (mem p).size = (mem q).ptr then
    Function.update mem p ⟨(mem (mem q).ptr).ptr, wrap ((mem p).size + (mem (mem q).ptr).size)⟩
  else Function.update mem p ⟨(mem q).ptr, (mem p).size⟩

def joinLower (mem : Nat → Header) (q p : Nat) : Nat → Header :=
  if headerAdd q (mem q).size = p then
    Function.update mem q ⟨(mem p).ptr, wrap ((mem q).size + (mem p).size)⟩
  else Function.update mem q ⟨p, (mem q).size⟩

def free (fuel : Nat) (s : State) (ap : Nat) : Option State :=
  let p := wrap (ap + 2^32 - sizeofHeader)
  match loop (freePass s.mem p) fuel s.allocp with
  | none => none
  | some q => some { s with mem := joinLower (joinUpper s.mem q p) q p, allocp := q }

def coremore (L : Layout) (fuel : Nat) (s : State) (nunits : Nat) : Option (Nat × State) :=
  let batch := batchOf nunits
  let (p, s) := mdSbrk L s (wrap (batch * sizeofHeader))
  if p = 0 then some (0, s)
  else
    let s := s.setHeader p { s.mem p with size := batch }
    match free fuel s (headerAdd p 1) with
    | none => none
    | some s => some (s.allocp, s)

/-- The search loop of `malloc` keeps the allocator state and the two list pointers. -/
structure Cursor where
  state : State
  q : Nat
  p : Nat

def take (s : State) (q p nunits : Nat) : Nat × State :=
  if (s.mem p).size = nunits then
    (headerAdd p 1, { s.setHeader q { s.mem q with ptr := (s.mem p).ptr } with allocp := q })
  else
    let rest := (s.mem p).size - nunits
    let tail := headerAdd p rest
    let cut := s.setHeader p { s.mem p with size := rest }
    (headerAdd tail 1,
      { cut.setHeader tail { cut.mem tail with size := nunits } with allocp := q })

def mallocPass (L : Layout) (fuel nunits : Nat) (c : Cursor) : Option (Pass Cursor (Nat × State)) :=
  if (c.state.mem c.p).size ≥ nunits then some (.leave (take c.state c.q c.p nunits))
  else if c.p = c.state.allocp then
    match coremore L fuel c.state nunits with
    | none => none
    | some (p, s) =>
      if p = 0 then some (.leave (0, s))
      else some (.again ⟨s, p, (s.mem p).ptr⟩)
  else some (.again ⟨c.state, c.p, (c.state.mem c.p).ptr⟩)

def prepare (L : Layout) (s : State) : State :=
  if s.allocp = 0 then { s.setHeader L.base ⟨L.base, 0⟩ with allocp := L.base } else s

def malloc (L : Layout) (fuel : Nat) (s : State) (nbytes : Nat) : Option (Nat × State) :=
  let s := prepare L s
  let q := s.allocp
  loop (mallocPass L fuel (unitsOf nbytes)) fuel ⟨s, q, (s.mem q).ptr⟩

/-- `heap_init`: nothing has been handed out and the list is not yet linked. -/
def start (L : Layout) (mem : Nat → Header) : State := ⟨mem, 0, L.heapBase⟩

end Embryo.Malloc
