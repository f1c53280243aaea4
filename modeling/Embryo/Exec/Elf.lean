import Embryo.Machine.Loop
import Embryo.Machine.Physical
import Embryo.Machine.Word

namespace Embryo.Exec

open Embryo.Machine

def heapBase : Nat := 0x8f400000
def heapSize : Nat := 0x400000

def mdOnHeapSpace (vaddr : Nat) : Prop := phys heapBase ≤ phys vaddr ∧ phys vaddr < phys (heapBase + heapSize)

instance (vaddr : Nat) : Decidable (mdOnHeapSpace vaddr) := inferInstanceAs (Decidable (_ ∧ _))

def mdLoadAddrIsvalid (start stop : Nat) : Prop := ¬ mdOnHeapSpace start ∧ ¬ mdOnHeapSpace stop

instance (start stop : Nat) : Decidable (mdLoadAddrIsvalid start stop) := inferInstanceAs (Decidable (_ ∧ _))

def ptNull : Nat := 0
def ptLoad : Nat := 1
def etExec : Nat := 2
def emMips : Nat := 8

/-- Where the fields of a class lie that the loader reads. `word` is the size of its addresses,
    offsets and lengths. -/
structure Layout where
  word : Nat
  ehdrSize : Nat
  eEntry : Nat
  ePhoff : Nat
  eEhsize : Nat
  ePhentsize : Nat
  ePhnum : Nat
  phdrSize : Nat
  pOffset : Nat
  pVaddr : Nat
  pFilesz : Nat
  pMemsz : Nat
  counted : ePhnum + 2 ≤ ehdrSize
  inside : ∀ offset ∈ [pOffset, pVaddr, pFilesz, pMemsz], 4 ≤ offset ∧ offset + word ≤ phdrSize
  typed : 4 ≤ phdrSize

def elf32 : Layout where
  word := 4
  ehdrSize := 52
  eEntry := 24
  ePhoff := 28
  eEhsize := 40
  ePhentsize := 42
  ePhnum := 44
  phdrSize := 32
  pOffset := 4
  pVaddr := 8
  pFilesz := 16
  pMemsz := 20
  counted := by decide
  inside := by decide
  typed := by decide

def elf64 : Layout where
  word := 8
  ehdrSize := 64
  eEntry := 24
  ePhoff := 32
  eEhsize := 52
  ePhentsize := 54
  ePhnum := 56
  phdrSize := 56
  pOffset := 8
  pVaddr := 16
  pFilesz := 32
  pMemsz := 40
  counted := by decide
  inside := by decide
  typed := by decide

structure Phdr where
  pType : Nat
  pOffset : Nat
  pVaddr : Nat
  pFilesz : Nat
  pMemsz : Nat
deriving DecidableEq, Repr

def phdrAt (lay : Layout) (mem : Memory) (a : Nat) : Phdr where
  pType := field mem a 4
  pOffset := field mem (a + lay.pOffset) lay.word
  pVaddr := field mem (a + lay.pVaddr) lay.word
  pFilesz := field mem (a + lay.pFilesz) lay.word
  pMemsz := field mem (a + lay.pMemsz) lay.word

/-- An open file: a seek to an offset, which may fail, and a read, which has stored some bytes when it
    returns their number or -1. -/
structure Fd (σ : Type) where
  lseek : σ → Nat → Bool × σ
  read : σ → Nat → List UInt8 × Nat × σ
  fits : ∀ s n, (read s n).1.length ≤ n
  told : ∀ s n, (read s n).2.1 = (read s n).1.length ∨ (read s n).2.1 = 2^32 - 1

/-- Memory and the file. `order` tells which program headers were taken and `stores` what was stored
    through their addresses. -/
structure Loading (σ : Type) where
  mem : Memory
  file : σ
  order : List Nat
  stores : List (Nat × Nat)

structure Tables where
  elfhdr : Nat
  ephdrtab : Nat

inductive LoadRes where
  | success
  | loadErr
deriving DecidableEq, Repr

variable {σ : Type}

namespace Loading

def put (ld : Loading σ) (a : Nat) (data : List UInt8) : Loading σ :=
  { ld with mem := store ld.mem a data, stores := ld.stores ++ [(a, data.length)] }

end Loading

def chkloadaddr (p : Phdr) : Prop := mdLoadAddrIsvalid (wrap p.pVaddr) (wrap (p.pVaddr + p.pMemsz))

instance (p : Phdr) : Decidable (chkloadaddr p) := inferInstanceAs (Decidable (mdLoadAddrIsvalid _ _))

def loadseg2mem (fd : Fd σ) (p : Phdr) (ld : Loading σ) : Bool × Loading σ :=
  match fd.lseek ld.file (wrap p.pOffset) with
  | (false, file) => (false, { ld with file := file })
  | (true, file) =>
    let (data, returned, file) := fd.read file (wrap p.pFilesz)
    (decide (returned = wrap p.pFilesz), { ld with file := file }.put (wrap p.pVaddr) data)

def clearseg (p : Phdr) (ld : Loading σ) : Loading σ :=
  if p.pFilesz < p.pMemsz then
    ld.put (wrap (p.pVaddr + p.pFilesz)) (List.replicate (wrap (p.pMemsz - p.pFilesz)) 0)
  else ld

/-- The search for the program header to load next, from the `i`th on. -/
def lowestFrom : List Phdr → Nat → Option Nat → Nat → Option Nat
  | [], _, found, _ => found
  | p :: rest, i, found, lowestOff =>
    if p.pType = ptLoad ∧ p.pOffset < lowestOff then lowestFrom rest (i + 1) (some i) p.pOffset
    else lowestFrom rest (i + 1) found lowestOff

def topOff (lay : Layout) : Nat := 256^lay.word - 1

def lowest (lay : Layout) (tab : List Phdr) : Option Nat := lowestFrom tab 0 none (topOff lay)

namespace Tables

variable (blk : Tables) (lay : Layout)

def ephdr (i : Nat) : Nat := blk.ephdrtab + i * lay.phdrSize

def phdrs (mem : Memory) : List Phdr :=
  (List.range (field mem (blk.elfhdr + lay.ePhnum) 2)).map fun i => phdrAt lay mem (blk.ephdr lay i)

end Tables

/-- `ephdr->p_type = PT_NULL`. -/
def Loading.retire (ld : Loading σ) (ephdr : Nat) : Loading σ :=
  { ld with mem := store ld.mem ephdr [0, 0, 0, 0] }

abbrev Outcome (σ : Type) := LoadRes × Option Nat × Loading σ

/-- One pass of the loop that loads the segments. Each access to a program header is to memory, into
    which `read` may have stored something else. -/
def loadPass (lay : Layout) (fd : Fd σ) (blk : Tables) (ld : Loading σ) : Pass (Loading σ) (Outcome σ) :=
  match lowest lay (blk.phdrs lay ld.mem) with
  | none => .leave (.success, some (wrap (field ld.mem (blk.elfhdr + lay.eEntry) lay.word)), ld)
  | some i =>
    let ephdr := blk.ephdr lay i
    let p := phdrAt lay ld.mem ephdr
    let taken := { ld with order := ld.order ++ [i] }
    if p.pFilesz = 0 then .again (taken.retire ephdr)
    else if ¬ chkloadaddr p then .leave (.loadErr, none, taken)
    else
      match loadseg2mem fd p taken with
      | (false, ld) => .leave (.loadErr, none, ld)
      | (true, ld) => .again ((clearseg (phdrAt lay ld.mem ephdr) ld).retire ephdr)

def openElf (lay : Layout) (fd : Fd σ) (elfhdr ephdrtab : Option Nat) (mem : Memory) (file : σ) :
    Except (Loading σ) (Tables × Loading σ) :=
  match elfhdr with
  | none => .error ⟨mem, file, [], []⟩
  | some elfhdr =>
    match fd.lseek file 0 with
    | (false, file) => .error ⟨mem, file, [], []⟩
    | (true, file) =>
      let (data, returned, file) := fd.read file lay.ehdrSize
      let mem := store mem elfhdr data
      let ePhnum := field mem (elfhdr + lay.ePhnum) 2
      if returned ≠ lay.ehdrSize then .error ⟨mem, file, [], []⟩
      else if field mem (elfhdr + 16) 2 ≠ etExec then .error ⟨mem, file, [], []⟩
      else if field mem (elfhdr + 18) 2 ≠ emMips then .error ⟨mem, file, [], []⟩
      else if field mem (elfhdr + lay.eEhsize) 2 ≠ lay.ehdrSize ∨
          field mem (elfhdr + lay.ePhentsize) 2 ≠ lay.phdrSize then .error ⟨mem, file, [], []⟩
      else
        match ephdrtab with
        | none => .error ⟨mem, file, [], []⟩
        | some ephdrtab =>
          match fd.lseek file (wrap (field mem (elfhdr + lay.ePhoff) lay.word)) with
          | (false, file) => .error ⟨mem, file, [], []⟩
          | (true, file) =>
            let (data, returned, file) := fd.read file (ePhnum * lay.phdrSize)
            let mem := store mem ephdrtab data
            if returned ≠ ePhnum * lay.phdrSize then .error ⟨mem, file, [], []⟩
            else .ok (⟨elfhdr, ephdrtab⟩, ⟨mem, file, [], []⟩)

def loadLoop (lay : Layout) (fd : Fd σ) (blk : Tables) (fuel : Nat) (ld : Loading σ) : Option (Outcome σ) :=
  loop (fun ld => some (loadPass lay fd blk ld)) fuel ld

def loader (lay : Layout) (fd : Fd σ) (elfhdr ephdrtab : Option Nat) (fuel : Nat) (mem : Memory) (file : σ) :
    Option (Outcome σ) :=
  match openElf lay fd elfhdr ephdrtab mem file with
  | .error ld => some (.loadErr, none, ld)
  | .ok (blk, ld) => loadLoop lay fd blk fuel ld

def elf32Loader : Fd σ → Option Nat → Option Nat → Nat → Memory → σ → Option (Outcome σ) := loader elf32

def elf64Loader : Fd σ → Option Nat → Option Nat → Nat → Memory → σ → Option (Outcome σ) := loader elf64

end Embryo.Exec
