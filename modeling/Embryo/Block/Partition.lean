import Embryo.Machine.Bytes
import Embryo.Machine.Word

namespace Embryo.Block

open Embryo.Machine

def enxio : Nat := 6
def enomem : Nat := 12
def eopnotsupp : Nat := 45
def enametoolong : Nat := 63

abbrev Errno := { code : Nat // code ≠ 0 }

def blockPartTypeDos : Nat := 2
def ataSectSize : Nat := 512
def mbrSectorSz : Nat := 512
def mbrPartMagic : Nat := 0xaa55
def mbrPartOffs : Nat := 0x1be
def mbrPartSz : Nat := 64
def sizeofMbrPartition : Nat := 16
def bootActivePartition : UInt8 := 0x80
def partNameMax : Nat := 64
def partInfoMax : Nat := 4

structure MbrPartition where
  bootSignature : UInt8
  startHead : UInt8
  startSector : Nat
  startCylinder : Nat
  systemSignature : UInt8
  endHead : UInt8
  endSector : Nat
  endCylinder : Nat
  beforePartSector : Nat
  sectorsTotal : Nat

/-- The `struct mbr_partition` at `a`. A sector number and a cylinder number share 16 bits. -/
def mbrPartition (mem : Memory) (a : Nat) : MbrPartition where
  bootSignature := mem a
  startHead := mem (a + 1)
  startSector := (mem (a + 2)).toNat % 64
  startCylinder := ((mem (a + 2)).toNat + 256 * (mem (a + 3)).toNat) / 64
  systemSignature := mem (a + 4)
  endHead := mem (a + 5)
  endSector := (mem (a + 6)).toNat % 64
  endCylinder := ((mem (a + 6)).toNat + 256 * (mem (a + 7)).toNat) / 64
  beforePartSector := load32 mem (a + 8)
  sectorsTotal := load32 mem (a + 12)

def MbrPartition.empty (p : MbrPartition) : Prop :=
  p.startHead = 0 ∧ p.endHead = 0 ∧ p.startSector = 0 ∧ p.endSector = 0 ∧ p.startCylinder = 0 ∧
    p.endCylinder = 0

instance (p : MbrPartition) : Decidable p.empty := inferInstanceAs (Decidable (_ ∧ _))

structure PartitionInfo where
  piStart : Nat
  piEnd : Nat
  piBlks : Nat
  piSysid : UInt8
  piValid : UInt8
  piBoot : UInt8
  piName : List UInt8
deriving DecidableEq

def noPartition : PartitionInfo := ⟨0, 0, 0, 0, 0, 0, []⟩

/-- A disk of the AHCI driver, which gives all its disks blocks of `ATA_SECT_SIZE`: the kind of its
    partition table, its name, and what `ata_blk_read` makes of the boot sector. -/
structure Disk where
  bdPartType : Nat
  bdName : List UInt8
  ataBlkRead : Except Errno (Vector UInt8 mbrSectorSz)

def diskReadMbr (d : Disk) : Except Errno (Vector UInt8 mbrSectorSz) :=
  if d.bdPartType ≠ blockPartTypeDos then .error ⟨eopnotsupp, by decide⟩ else d.ataBlkRead

/-- What an entry that is in use is turned into, in slot `i`. -/
def partitionInfo (name : List UInt8) (i : Nat) (p : MbrPartition) : PartitionInfo where
  piStart := p.beforePartSector
  piEnd := wsub (wrap (p.beforePartSector + p.sectorsTotal)) 1
  piBlks := p.sectorsTotal / (1024 / ataSectSize)
  piSysid := p.systemSignature
  piValid := 1
  piBoot := if p.bootSignature = bootActivePartition then 1 else 0
  piName := name ++ [45, UInt8.ofNat (i + 49)]

/-- The loop of `disk_read_partition`, from slot `i` on with so many left: what is returned, where
    `mbrpart` points then, and the table. -/
def readSlots (name : List UInt8) (mem : Memory) : Nat → Nat → Nat → Nat → (Nat → PartitionInfo) →
    Nat × Nat × (Nat → PartitionInfo)
  | 0, _, _, mbrpart, parttab => (0, mbrpart, parttab)
  | left + 1, i, part, mbrpart, parttab =>
    if (mbrPartition mem mbrpart).empty then
      readSlots name mem left (i + 1) part mbrpart
        (Function.update parttab part { parttab part with piValid := 0 })
    else if name.length + 3 > partNameMax then (enametoolong, mbrpart, parttab)
    else
      readSlots name mem left (i + 1) (part + 1) (mbrpart + sizeofMbrPartition)
        (Function.update parttab part (partitionInfo name i (mbrPartition mem mbrpart)))

/-- What a call leaves: its result, the table, the block that `kmem_malloc` gave and what went to
    `kmem_free`. -/
structure PartRead where
  ret : Nat
  parttab : Nat → PartitionInfo
  taken : List Nat
  freed : List Nat

def signed (mbr : Vector UInt8 mbrSectorSz) : Prop := mbr[510].toNat + 256 * mbr[511].toNat = mbrPartMagic

instance (mbr : Vector UInt8 mbrSectorSz) : Decidable (signed mbr) := inferInstanceAs (Decidable (_ = _))

/-- `disk_read_partition`, for the block that `kmem_malloc` has for it. -/
def diskReadPartition (d : Disk) (kmem : Option Nat) (mem : Memory)
    (parttab : Nat → PartitionInfo) : PartRead :=
  if d.bdPartType ≠ blockPartTypeDos then ⟨eopnotsupp, parttab, [], []⟩
  else
    match diskReadMbr d with
    | .error ret => ⟨ret, parttab, [], []⟩
    | .ok mbr =>
      if ¬ signed mbr then ⟨enxio, parttab, [], []⟩
      else
        let parttab := fun i => if i < partInfoMax then noPartition else parttab i
        match kmem with
        | none => ⟨enomem, parttab, [], []⟩
        | some base =>
          let mem := write mem base ((mbr.toList.drop mbrPartOffs).take mbrPartSz)
          let (ret, mbrpart, parttab) := readSlots d.bdName mem partInfoMax 0 0 base parttab
          ⟨ret, parttab, [base], [mbrpart]⟩

def mbrEntry (mbr : Vector UInt8 mbrSectorSz) (i : Nat) : MbrPartition :=
  mbrPartition (fun a => mbr.toList.getD a 0) (mbrPartOffs + sizeofMbrPartition * i)

structure Describes (p : MbrPartition) (info : PartitionInfo) : Prop where
  valid : info.piValid = 0 ↔ p.empty
  sysid : ¬ p.empty → info.piSysid = p.systemSignature
  start : ¬ p.empty → info.piStart = p.beforePartSector
  stop : ¬ p.empty → info.piEnd = wsub (wrap (p.beforePartSector + p.sectorsTotal)) 1
  blks : ¬ p.empty → info.piBlks = p.sectorsTotal / (1024 / ataSectSize)

structure Decoded (d : Disk) (r : PartRead) : Prop where
  slots : r.ret = 0 → ∀ mbr, d.ataBlkRead = .ok mbr →
    ∀ i < partInfoMax, Describes (mbrEntry mbr i) (r.parttab i)
  released : r.freed = r.taken

variable {name : List UInt8} {mem : Memory} {left i part mbrpart : Nat} {parttab : Nat → PartitionInfo}

theorem mbrPartition_congr {mem mem' : Memory} {a b : Nat} (same : ∀ k < 16, mem' (b + k) = mem (a + k)) :
    mbrPartition mem' b = mbrPartition mem a := by
  have word : ∀ k ≤ 12, load32 mem' (b + k) = load32 mem (a + k) := by
    intro k bound
    have first := same k (by omega)
    have second := same (k + 1) (by omega)
    have third := same (k + 2) (by omega)
    have fourth := same (k + 3) (by omega)
    simp only [load32, Nat.add_assoc, first, second, third, fourth]
  have first := same 0 (by decide)
  simp only [Nat.add_zero] at first
  simp only [mbrPartition, first, same 1 (by decide), same 2 (by decide), same 3 (by decide),
    same 4 (by decide),
    same 5 (by decide), same 6 (by decide), same 7 (by decide), word 8 (by decide), word 12 (by decide)]

theorem copied_entry (mem : Memory) (base : Nat) (mbr : Vector UInt8 mbrSectorSz) {i : Nat}
    (inside : i < partInfoMax) :
    mbrPartition (write mem base ((mbr.toList.drop mbrPartOffs).take mbrPartSz))
    (base + sizeofMbrPartition * i) =
      mbrEntry mbr i := by
  apply mbrPartition_congr
  intro k bound
  have size : mbr.toList.length = 512 := mbr.size_toArray
  simp only [partInfoMax, sizeofMbrPartition] at inside ⊢
  have within : 16 * i + k < ((mbr.toList.drop mbrPartOffs).take mbrPartSz).length := by
    rw [List.length_take, List.length_drop, size, mbrPartOffs, mbrPartSz]
    omega
  rw [Nat.add_assoc, write_inside within, List.get_eq_getElem, List.getElem_take, List.getElem_drop,
    List.getD_eq_getElem _ _ (by
      rw [size, mbrPartOffs]
      omega)]
  dsimp only
  congr 1
  rw [mbrPartOffs]
  omega

theorem readSlots_stuck (empty : (mbrPartition mem mbrpart).empty) (blank : parttab part = noPartition) :
    readSlots name mem left i part mbrpart parttab = (0, mbrpart, parttab) := by
  induction left generalizing i with
  | zero => rfl
  | succ left ih =>
    have same : Function.update parttab part { parttab part with piValid := 0 } = parttab := by
      have zero : { parttab part with piValid := 0 } = parttab part := by
        rw [blank]
        rfl
      rw [zero, Function.update_eq_self]
    rw [readSlots, if_pos empty, same]
    exact ih

theorem readSlots_onward : mbrpart ≤ (readSlots name mem left i part mbrpart parttab).2.1 := by
  induction left generalizing i part mbrpart parttab with
  | zero => exact Nat.le_refl _
  | succ left ih =>
    rw [readSlots]
    split
    · exact ih
    · split
      · exact Nat.le_refl _
      · exact (Nat.le_add_right _ _).trans ih

theorem noPartition_describes {p : MbrPartition} : Describes p noPartition ↔ p.empty := by
  constructor
  · exact fun describes => describes.valid.mp rfl
  · exact fun empty => ⟨iff_of_true rfl empty, absurd empty, absurd empty, absurd empty, absurd empty⟩

theorem table_decoded_iff {d : Disk} {mbr : Vector UInt8 mbrSectorSz} {base : Nat}
    (dos : d.bdPartType = blockPartTypeDos) (read : d.ataBlkRead = .ok mbr) (magic : signed mbr) :
    Decoded d (diskReadPartition d (some base) mem parttab) ↔
      (∀ i < partInfoMax, (mbrEntry mbr i).empty) ∨ ¬ (mbrEntry mbr 0).empty ∧
        d.bdName.length + 3 > partNameMax := by
  have first := @copied_entry mem base mbr 0 (by decide)
  rw [Nat.mul_zero, Nat.add_zero] at first
  rw [diskReadPartition, if_neg (not_not.mpr dos), diskReadMbr, if_neg (not_not.mpr dos), read]
  dsimp only
  rw [if_neg (not_not.mpr magic)]
  by_cases empty : (mbrEntry mbr 0).empty
  · rw [readSlots_stuck (first ▸ empty) rfl]
    constructor
    · intro decoded
      left
      intro i inside
      have described := decoded.slots rfl mbr read i inside
      dsimp only at described
      rw [if_pos inside, noPartition_describes] at described
      exact described
    · rintro (all | ⟨used, _⟩)
      · refine ⟨fun _ mbr' ok i inside => ?_, rfl⟩
        rw [read] at ok
        cases ok
        dsimp only
        rw [if_pos inside]
        exact noPartition_describes.mpr (all i inside)
      · exact absurd empty used
  · have used : ¬ (mbrPartition (write mem base ((mbr.toList.drop mbrPartOffs).take mbrPartSz))
      base).empty := first ▸ empty
    rw [partInfoMax, readSlots, if_neg used]
    by_cases long : d.bdName.length + 3 > partNameMax
    · rw [if_pos long]
      exact iff_of_true ⟨nofun, rfl⟩ (.inr ⟨empty, long⟩)
    · rw [if_neg long]
      refine iff_of_false (fun decoded => ?_) ?_
      · have released := decoded.released
        have returned : _ = base := List.singleton_inj.mp released
        have onward : base + sizeofMbrPartition ≤ base := readSlots_onward.trans_eq returned
        rw [sizeofMbrPartition] at onward
        omega
      · rintro (all | ⟨_, name⟩)
        · exact empty (all 0 (by decide))
        · exact long name

/-- `disk_read_partition` decodes a table that it gets to exactly when it has no entry in use, and
    frees its buffer then and when it turns down the name for the first entry. -/
theorem partitions_decoded_iff (d : Disk) (kmem : Option Nat) (mem : Memory) (parttab : Nat → PartitionInfo) :
    Decoded d (diskReadPartition d kmem mem parttab) ↔
      ∀ mbr, d.bdPartType = blockPartTypeDos → d.ataBlkRead = .ok mbr → signed mbr → kmem.isSome →
        (∀ i < partInfoMax, (mbrEntry mbr i).empty) ∨ ¬ (mbrEntry mbr 0).empty ∧
          d.bdName.length + 3 > partNameMax := by
  by_cases dos : d.bdPartType = blockPartTypeDos
  swap
  · rw [diskReadPartition, if_pos dos]
    exact iff_of_true ⟨nofun, rfl⟩ fun _ type => absurd type dos
  cases read : d.ataBlkRead with
  | error code =>
    rw [diskReadPartition, if_neg (not_not.mpr dos), diskReadMbr, if_neg (not_not.mpr dos), read]
    refine iff_of_true ⟨fun zero => absurd zero code.2, rfl⟩ ?_
    intro mbr _ ok
    cases ok
  | ok mbr =>
    by_cases magic : signed mbr
    swap
    · rw [diskReadPartition, if_neg (not_not.mpr dos), diskReadMbr, if_neg (not_not.mpr dos), read]
      dsimp only
      rw [if_pos magic]
      refine iff_of_true ⟨nofun, rfl⟩ ?_
      intro _ _ ok there
      cases ok
      exact absurd there magic
    cases kmem with
    | none =>
      rw [diskReadPartition, if_neg (not_not.mpr dos), diskReadMbr, if_neg (not_not.mpr dos), read]
      dsimp only
      rw [if_neg (not_not.mpr magic)]
      exact iff_of_true ⟨nofun, rfl⟩ (fun _ _ _ _ => nofun)
    | some base =>
      rw [table_decoded_iff dos read magic]
      constructor
      · rintro here _ _ ⟨⟩ _ _
        exact here
      · exact fun all => all mbr dos rfl magic rfl

def onePartition (entry : Nat) : Disk where
  bdPartType := blockPartTypeDos
  bdName := [115, 100, 97]
  ataBlkRead := .ok <| .ofFn fun i =>
    if i.val = mbrPartOffs + sizeofMbrPartition * entry + 1 then 1
    else if i.val = mbrPartOffs + sizeofMbrPartition * entry + 4 then 0x83
    else if i.val = 510 then 0x55
    else if i.val = 511 then 0xaa
    else 0

theorem startHead_eq {mbr : Vector UInt8 mbrSectorSz} {entry : Nat}
    (inside : mbrPartOffs + sizeofMbrPartition * entry + 1 < mbrSectorSz) :
    (mbrEntry mbr entry).startHead = mbr[mbrPartOffs + sizeofMbrPartition * entry + 1] := by
  have size : mbr.toList.length = mbrSectorSz := mbr.size_toArray
  exact List.getD_eq_getElem _ _ (inside.trans_eq size.symm)

theorem onePartition_lost {entry base : Nat} (inside : entry < partInfoMax) :
    ¬ Decoded (onePartition entry) (diskReadPartition (onePartition entry) (some base) mem parttab) := by
  intro decoded
  rw [partInfoMax] at inside
  rw [table_decoded_iff rfl rfl (by
    rw [signed, Vector.getElem_ofFn, Vector.getElem_ofFn, if_neg, if_neg, if_pos rfl, if_neg,
      if_neg, if_neg, if_pos rfl]
    · rfl
    all_goals
      simp only [mbrPartOffs, sizeofMbrPartition]
      omega)] at decoded
  rcases decoded with all | ⟨_, long⟩
  · have head := (all entry inside).1
    rw [startHead_eq (by
      simp only [mbrPartOffs, sizeofMbrPartition, mbrSectorSz]
      omega), Vector.getElem_ofFn, if_pos rfl] at head
    exact absurd head (by decide)
  · have short : ([115, 100, 97] : List UInt8).length + 3 ≤ partNameMax := by decide
    exact absurd long (Nat.not_lt.mpr short)

/-- A partition in the second entry, after an empty one, is not seen; one in the first entry makes
    the loop move `mbrpart`, and it is not the buffer that is freed. -/
theorem partition_lost :
    ¬ Decoded (onePartition 1)
    (diskReadPartition (onePartition 1) (some 4096) (fun _ => 0) fun _ => noPartition) ∧
    ¬ Decoded (onePartition 0)
    (diskReadPartition (onePartition 0) (some 4096) (fun _ => 0) fun _ => noPartition) :=
  ⟨onePartition_lost (by decide), onePartition_lost (by decide)⟩

end Embryo.Block
