import Embryo.Block.Partition
import Embryo.Fs.Lookup
import Mathlib.Data.Nat.Digits.Defs

namespace Embryo.Fs

open Embryo.Block

def eperm : Nat := 1
def eacces : Nat := 13
def enodev : Nat := 19
def einval : Nat := 22

def blkFilenameMax : Nat := 16
def dash : UInt8 := 45

structure PartInf where
  ret : Nat
  errno : Nat
  parttab : Nat → PartitionInfo

/-- A `block_device`, with what its driver makes of `errno` and a table when it reads the partitions. -/
structure Blkdev where
  boReadPartition : Option (Nat → (Nat → PartitionInfo) → PartInf)

/-- What an open finds: whether `malloc` has its two blocks, the devices, and the contents of the
    array on the stack. -/
structure Opening where
  accmode : AccMode
  ef : Bool
  bf : Bool
  blkdevLookup : List UInt8 → Option Blkdev
  partitions : Nat → PartitionInfo

def blkfileIoctl (dev : Blkdev) (errno : Nat) (parttab : Nat → PartitionInfo) : PartInf :=
  match dev.boReadPartition with
  | none => ⟨eopnotsupp, errno, parttab⟩
  | some read => read errno parttab

/-- The name of the device, the place in the table and the name of the file that a path gives. -/
def parsePath (path : List UInt8) : Except Nat (List UInt8 × Option Nat × List UInt8) :=
  let devname := path.takeWhile (· ≠ slash)
  match path.drop devname.length with
  | [] => .error einval
  | _ :: filename =>
    if devname.length ≥ blkFilenameMax then .error enametoolong
    else
      let bfName := devname.takeWhile (· ≠ dash)
      let cp := path.drop bfName.length
      if cp.head? = some dash then
        let c := (cp.getD 1 0).toNat
        if c > 48 + partInfoMax ∨ c < 49 then .error einval else .ok (bfName, some (c - 49), filename)
      else .ok (bfName, none, filename)

def startSect (part : Option Nat) (errno : Nat) (partitions : Nat → PartitionInfo) : Except Nat Nat :=
  if errno = 0 then
    match part with
    | some part =>
      if (partitions part).piValid ≠ 0 then
        if (partitions part).piSysid ≠ 0x83 then .error einval else .ok (partitions part).piStart
      else .error einval
    | none =>
      if (partitions 0).piValid ≠ 0 then
        if (partitions 0).piSysid ≠ 0x83 then .error einval else .ok (partitions 0).piStart
      else .ok 0
  else
    match part with
    | none => .ok 0
    | some _ => .error einval

/-- What follows the ioctl. The result of `&&`, a truth value, is what `errno` is set to. -/
def afterIoctl (part : Option Nat) (inf : PartInf) : Except Nat Nat :=
  let errno := if inf.ret ≠ 0 ∧ inf.errno ≠ enxio then 1 else 0
  if errno ≠ 0 then .error errno else startSect part errno inf.parttab

/-- `ext2_open` as far as the start sector. `errno` is 0 when the ioctl is called. -/
def ext2Open (o : Opening) (path : List UInt8) : Except Nat Nat :=
  if o.accmode ≠ .rdonly then .error eacces
  else if ¬ o.ef then .error enomem
  else if ¬ o.bf then .error enomem
  else
    match parsePath path with
    | .error errno => .error errno
    | .ok (bfName, part, _) =>
      match o.blkdevLookup bfName with
      | none => .error enodev
      | some dev => afterIoctl part (blkfileIoctl dev 0 o.partitions)

def decimal (n : Nat) : List UInt8 :=
  if n = 0 then [48] else (Nat.digits 10 n).reverse.map fun d => UInt8.ofNat (48 + d)

def leading (n : Nat) : Nat := (Nat.digits 10 n).getLastD 0

structure Path where
  device : List UInt8
  plain : ∀ c ∈ device, c ≠ slash ∧ c ≠ dash
  n : Option Nat
  file : List UInt8

namespace Path

def number (p : Path) : List UInt8 :=
  match p.n with
  | none => []
  | some n => dash :: decimal n

def text (p : Path) : List UInt8 := p.device ++ p.number ++ slash :: p.file

end Path

def Linux (info : PartitionInfo) : Prop := info.piValid ≠ 0 ∧ info.piSysid = 0x83

instance (info : PartitionInfo) : Decidable (Linux info) := inferInstanceAs (Decidable (_ ∧ _))

def choice (n : Option Nat) (ret : Nat) (partitions : Nat → PartitionInfo) : Except Nat Nat :=
  match n with
  | some n =>
    if n < 1 ∨ partInfoMax < n then .error einval
    else if ret = 0 then if Linux (partitions (n - 1)) then .ok (partitions (n - 1)).piStart
      else .error einval
    else if ret = enxio then .error einval
    else .error ret
  | none =>
    if ret = 0 then
      if (partitions 0).piValid = 0 then .ok 0
      else if Linux (partitions 0) then .ok (partitions 0).piStart
      else .error einval
    else if ret = enxio then .ok 0
    else .error ret

structure Reaches (o : Opening) (p : Path) (dev : Blkdev) : Prop where
  rdonly : o.accmode = .rdonly
  ef : o.ef = true
  bf : o.bf = true
  short : (p.device ++ p.number).length < blkFilenameMax
  found : o.blkdevLookup p.device = some dev

def ChoosesRight (o : Opening) (p : Path) : Prop :=
  ∀ dev, Reaches o p dev →
    ext2Open o p.text = choice p.n (blkfileIoctl dev 0 o.partitions).ret
      (blkfileIoctl dev 0 o.partitions).parttab

def Stale (inf : PartInf) : Prop := inf.ret ≠ 0 ∧ inf.errno = enxio

def Suits : Option Nat → PartInf → Prop
  | none, inf =>
    inf.ret = 0 ∨ (inf.ret = eperm ∧ inf.errno ≠ enxio) ∨ Stale inf ∧
      (inf.ret = enxio ∧ ((inf.parttab 0).piValid = 0 ∨ Linux (inf.parttab 0) ∧ (inf.parttab 0).piStart = 0) ∨
        inf.ret = einval ∧ (inf.parttab 0).piValid ≠ 0 ∧ ¬ Linux (inf.parttab 0))
  | some n, inf =>
    leading n < 1 ∨ partInfoMax < leading n ∨
      if n < 10 then
        inf.ret = 0 ∨ (inf.ret = eperm ∧ inf.errno ≠ enxio) ∨ Stale inf ∧
          (inf.ret = enxio ∨ inf.ret = einval) ∧ ¬ Linux (inf.parttab (n - 1))
      else (inf.ret = 0 ∨ Stale inf) ∧ ¬ Linux (inf.parttab (leading n - 1))

variable {n : Nat} {p : Path} {o : Opening} {dev : Blkdev} {inf : PartInf}

theorem leading_lt : leading n < 10 := by
  rw [leading]
  by_cases zero : Nat.digits 10 n = []
  · rw [zero]
    decide
  · rw [List.getLastD_eq_getLast?, List.getLast?_eq_some_getLast zero]
    exact Nat.digits_lt_base (by decide) (List.getLast_mem zero)

theorem leading_small (small : n < 10) : leading n = n := by
  by_cases zero : n = 0
  · rw [zero]
    rfl
  · rw [leading, Nat.digits_of_lt 10 n zero small]
    rfl

theorem decimal_cons (n : Nat) : ∃ rest, decimal n = UInt8.ofNat (48 + leading n) :: rest := by
  rw [decimal, leading]
  split
  case isTrue zero => exact ⟨[], by rw [zero]; rfl⟩
  case isFalse nonzero =>
    have digits : Nat.digits 10 n ≠ [] := Nat.digits_ne_nil_iff_ne_zero.mpr nonzero
    rw [← List.dropLast_append_getLast digits, List.reverse_append, List.getLastD_concat]
    exact ⟨_, rfl⟩

theorem decimal_digit {c : UInt8} (member : c ∈ decimal n) : 48 ≤ c.toNat := by
  rw [decimal] at member
  split at member
  · rw [List.mem_singleton.mp member]
    decide
  · obtain ⟨d, inside, rfl⟩ := List.mem_map.mp member
    have digit : d < 10 := Nat.digits_lt_base (by decide) (List.mem_reverse.mp inside)
    rw [UInt8.toNat_ofNat']
    omega

theorem Path.number_slash (p : Path) {c : UInt8} (member : c ∈ p.number) : c ≠ slash := by
  rw [number] at member
  cases given : p.n with
  | none => simp only [given, List.not_mem_nil] at member
  | some n =>
    simp only [given, List.mem_cons] at member
    rintro rfl
    rcases member with same | digit
    · exact absurd same (by decide)
    · exact absurd (decimal_digit digit) (by decide)

theorem parsePath_text (p : Path) : parsePath p.text =
    if (p.device ++ p.number).length ≥ blkFilenameMax then .error enametoolong
    else
      match p.n with
      | none => .ok (p.device, none, p.file)
      | some n =>
        if leading n < 1 ∨ partInfoMax < leading n then .error einval
            else .ok (p.device, some (leading n - 1), p.file) := by
  have devname : p.text.takeWhile (· ≠ slash) = p.device ++ p.number := by
    rw [Path.text, List.takeWhile_append_of_pos, List.takeWhile_cons_of_neg (by decide), List.append_nil]
    intro c member
    rw [decide_eq_true_eq]
    rcases List.mem_append.mp member with device | number
    · exact (p.plain c device).1
    · exact p.number_slash number
  have bfName : (p.device ++ p.number).takeWhile (· ≠ dash) = p.device := by
    rw [List.takeWhile_append_of_pos fun c member => decide_eq_true (p.plain c member).2, Path.number]
    cases p.n <;> exact List.append_nil _
  have filename : p.text.drop (p.device ++ p.number).length = slash :: p.file := List.drop_left
  have cp : p.text.drop p.device.length = p.number ++ slash :: p.file := by
    rw [Path.text, List.append_assoc, List.drop_left]
  simp only [parsePath, devname, filename, bfName, cp]
  congr 1
  rw [Path.number]
  cases p.n with
  | none => rfl
  | some n =>
    obtain ⟨rest, digits⟩ := decimal_cons n
    have small := leading_lt (n := n)
    have code : (UInt8.ofNat (48 + leading n)).toNat = 48 + leading n := by
      rw [UInt8.toNat_ofNat']
      omega
    have index : 48 + leading n - 49 = leading n - 1 := by omega
    have bounds : 48 + leading n > 48 + partInfoMax ∨ 48 + leading n < 49 ↔ leading n < 1 ∨
        partInfoMax < leading n := by
      omega
    simp only [digits, List.cons_append, List.head?_cons, if_true, List.getD_cons_succ,
      List.getD_cons_zero, code, index, bounds]

theorem afterIoctl_some (part : Nat) : afterIoctl (some part) inf =
    if inf.ret ≠ 0 ∧ inf.errno ≠ enxio then .error eperm
    else if Linux (inf.parttab part) then .ok (inf.parttab part).piStart
    else .error einval := by
  rw [afterIoctl]
  split
  · rfl
  · simp only [ne_eq, not_true, if_false, startSect, if_true, Linux]
    by_cases valid : (inf.parttab part).piValid = 0
    · simp only [valid, not_true, false_and, if_false]
    · simp only [valid, not_false_eq_true, true_and, if_true, ite_not]

theorem afterIoctl_none : afterIoctl none inf =
    if inf.ret ≠ 0 ∧ inf.errno ≠ enxio then .error eperm
    else if (inf.parttab 0).piValid = 0 then .ok 0
    else if Linux (inf.parttab 0) then .ok (inf.parttab 0).piStart
    else .error einval := by
  rw [afterIoctl]
  split
  · rfl
  · simp only [ne_eq, not_true, if_false, startSect, if_true, Linux]
    by_cases valid : (inf.parttab 0).piValid = 0
    · simp only [valid, not_true, if_true, if_false]
    · simp only [valid, not_false_eq_true, true_and, if_true, if_false, ite_not]

theorem Reaches.opens (reaches : Reaches o p dev) : ext2Open o p.text =
    match p.n with
    | none => afterIoctl none (blkfileIoctl dev 0 o.partitions)
    | some n =>
      if leading n < 1 ∨ partInfoMax < leading n then .error einval
      else afterIoctl (some (leading n - 1)) (blkfileIoctl dev 0 o.partitions) := by
  rw [ext2Open, if_neg (not_not.mpr reaches.rdonly), if_neg (not_not.mpr reaches.ef),
    if_neg (not_not.mpr reaches.bf),
    parsePath_text, if_neg (Nat.not_le.mpr reaches.short)]
  cases p.n with
  | none => simp only [reaches.found]
  | some n =>
    by_cases wrong : leading n < 1 ∨ partInfoMax < leading n
    · simp only [wrong, if_true]
    · simp only [wrong, if_false, reaches.found]

theorem suits_none : afterIoctl none inf = choice none inf.ret inf.parttab ↔ Suits none inf := by
  rw [afterIoctl_none, choice, Suits, Stale]
  by_cases zero : inf.ret = 0
  · simp [zero]
  have nonzero : enxio ≠ 0 := by decide
  have apart : enxio ≠ einval := by decide
  have permitted : enxio ≠ eperm := by decide
  by_cases left : inf.errno = enxio
  · by_cases invalid : (inf.parttab 0).piValid = 0
    · by_cases absent : inf.ret = enxio <;> simp [zero, left, invalid, absent, nonzero]
    · by_cases linux : Linux (inf.parttab 0) <;> by_cases absent : inf.ret = enxio <;>
        simp [zero, left, invalid, linux, absent, nonzero, apart, eq_comm]
  · by_cases absent : inf.ret = enxio <;> simp [zero, left, absent, nonzero, permitted, eq_comm]

theorem suits_some {info : PartInf} : (if leading n < 1 ∨ partInfoMax < leading n then .error einval
      else afterIoctl (some (leading n - 1)) info) = choice (some n) info.ret info.parttab ↔
        Suits (some n) info := by
  have nonzero : enxio ≠ 0 := by decide
  have permitted : enxio ≠ eperm := by decide
  have denied : eperm ≠ einval := by decide
  rw [choice, Suits, Stale]
  by_cases wrong : leading n < 1 ∨ partInfoMax < leading n
  · have missing : n < 1 ∨ partInfoMax < n := by
      by_cases small : n < 10
      · rwa [leading_small small] at wrong
      · rw [partInfoMax]
        omega
    simp only [wrong, missing, if_true, true_iff]
    exact or_assoc.mp (.inl wrong)
  rw [if_neg wrong, ← or_assoc, or_iff_right wrong, afterIoctl_some]
  by_cases small : n < 10
  · rw [leading_small small] at wrong ⊢
    rw [if_neg wrong, if_pos small]
    by_cases zero : info.ret = 0
    · simp [zero]
    by_cases left : info.errno = enxio
    · by_cases linux : Linux (info.parttab (n - 1)) <;> by_cases absent : info.ret = enxio <;>
        simp [zero, left, linux, absent, nonzero, eq_comm]
    · by_cases absent : info.ret = enxio <;> simp [zero, left, absent, nonzero, permitted,
        denied.symm, eq_comm]
  · have missing : n < 1 ∨ partInfoMax < n := by
      rw [partInfoMax]
      omega
    rw [if_pos missing, if_neg small]
    by_cases stale : info.ret ≠ 0 ∧ info.errno ≠ enxio
    · simp [stale, denied]
    · have read : info.ret = 0 ∨ info.ret ≠ 0 ∧ info.errno = enxio := by
        by_cases zero : info.ret = 0
        · exact .inl zero
        · exact .inr ⟨zero, not_not.mp fun left => stale ⟨zero, left⟩⟩
      by_cases linux : Linux (info.parttab (leading n - 1)) <;> simp [stale, read, linux]

/-- The start sector is chosen as the comments say exactly when the ioctl succeeds, with a number of
    one digit after the dash or one whose first digit is of no Linux partition, and where an error
    happens to come out right. -/
theorem partition_chosen_iff (o : Opening) (p : Path) : ChoosesRight o p ↔
    ∀ dev, Reaches o p dev → Suits p.n (blkfileIoctl dev 0 o.partitions) := by
  refine forall_congr' fun dev => forall_congr' fun reaches => ?_
  rw [reaches.opens]
  cases p.n with
  | none => exact suits_none
  | some n => exact suits_some

/-- A disk of the AHCI driver as a block device. A read of its boot sector sets `errno`. -/
def diskBlkdev (d : Disk) (kmem : Option Nat) (mem : Machine.Memory) : Blkdev where
  boReadPartition := some fun errno parttab =>
    let r := diskReadPartition d kmem mem parttab
    let left :=
      if d.bdPartType ≠ blockPartTypeDos then errno
      else
        match d.ataBlkRead with
        | .error code => code
        | .ok _ => 0
    ⟨r.ret, left, r.parttab⟩

def blankDisk : Disk := ⟨blockPartTypeDos, [115, 100, 97], .ok (Vector.replicate mbrSectorSz 0)⟩

def blankBlkdev : Blkdev := diskBlkdev blankDisk none fun _ => 0

def blankOpening : Opening where
  accmode := .rdonly
  ef := true
  bf := true
  blkdevLookup := fun _ => some blankBlkdev
  partitions := fun _ => noPartition

/-- A disk without a table is refused, and not read from sector 0. -/
theorem unpartitioned_refused :
    ¬ ChoosesRight blankOpening ⟨[115, 100, 97], by decide +kernel, none, [98]⟩ := by
  intro right
  have answer := right blankBlkdev ⟨rfl, rfl, rfl, by decide, rfl⟩
  have refused : ext2Open blankOpening [115, 100, 97, 47, 98] = .error eperm := by decide +kernel
  have chosen : (blkfileIoctl blankBlkdev 0 blankOpening.partitions).ret = enxio := by decide +kernel
  rw [chosen] at answer
  cases refused.symm.trans answer

end Embryo.Fs
