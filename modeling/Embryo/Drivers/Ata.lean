import Embryo.Machine.Layout
import Embryo.Machine.Loop
import Embryo.Machine.Physical
import Embryo.Machine.Word

namespace Embryo.Drivers

open Embryo.Machine

def ataMaxSectorsLba48 : Nat := 65535
def ataMaxSectors : Nat := 256
def ataSectSize : Nat := 512
def ahciMaxPrdCount : Nat := 56
def ahciMaxPrdDataSz : Nat := 4 * 1024 * 1024

structure AtaDevice where
  bdHasLba48 : Bool

def AtaDevice.bdMaxblks (adev : AtaDevice) : Nat :=
  if adev.bdHasLba48 then ataMaxSectorsLba48 else ataMaxSectors

structure Command where
  blkno : UInt64
  blkcnt : Nat
  buf : UInt32

structure Transfer where
  remain : Nat
  startblk : UInt64
  buf : UInt32
  issued : List Command

/-- A pass of `ata_blk_data_rw`. `blkDataRw` is what the driver answers to the last of the commands issued. -/
def dataPass (adev : AtaDevice) (blkDataRw : List Command → Nat) (blkcnt : Nat) (t : Transfer) :
    Option (Pass Transfer (Int × List Command)) :=
  if t.remain = 0 then some (.leave ((blkcnt - t.remain : Nat), t.issued))
  else
    let blks := if t.remain > adev.bdMaxblks then adev.bdMaxblks else t.remain
    let issued := t.issued ++ [⟨t.startblk, blks, t.buf⟩]
    if blkDataRw issued ≠ 0 then some (.leave (-1, issued))
    else some (.again ⟨t.remain - blks, t.startblk + UInt64.ofNat blks,
      t.buf + UInt32.ofNat (blks * ataSectSize), issued⟩)

def ataBlkDataRw (adev : AtaDevice) (blkDataRw : List Command → Nat) (startblk : UInt64) (blkcnt : Nat)
    (buf : UInt32) : Option (Int × List Command) :=
  loop (dataPass adev blkDataRw blkcnt) (blkcnt + 1) ⟨blkcnt, startblk, buf, []⟩

structure Prd where
  dba : Nat
  dbaHi : Nat
  dbc : Nat
  flagsI : Bool

def fillLoop (s64a irq : Bool) : Nat → UInt32 → Nat → List Prd
  | 0, _, _ => []
  | cnt + 1, buf, len =>
    let prd : Prd := {
      dba := phys buf.toNat
      dbaHi := if s64a then phys buf.toNat / 2^16 / 2^16 else 0
      dbc := if len < ahciMaxPrdDataSz then wsub len 1 else ahciMaxPrdDataSz - 1
      flagsI := irq }
    prd :: fillLoop s64a irq cnt (buf + UInt32.ofNat ahciMaxPrdDataSz) (wsub len ahciMaxPrdDataSz)

/-- The descriptors that `ahci_fill_prd` fills in, of which there are none when it gives up. -/
def ahciFillPrd (s64a : Bool) (buf : UInt32) (len : Nat) (irq : Bool) : List Prd :=
  let prdCnt := wsub len 1 / ahciMaxPrdDataSz + 1
  if prdCnt > ahciMaxPrdCount then [] else fillLoop s64a irq prdCnt buf len

def Command.blocks (c : Command) : List UInt64 := (List.range c.blkcnt).map fun k => c.blkno + UInt64.ofNat k

def Command.bytes (c : Command) : Nat := wrap (ataSectSize * c.blkcnt)

def Prd.bytes (p : Prd) : List Nat := List.range' (p.dba + 2^32 * p.dbaHi) (p.dbc + 1)

def command (startblk : UInt64) (buf : UInt32) (off cnt : Nat) : Command :=
  ⟨startblk + UInt64.ofNat off, cnt, buf + UInt32.ofNat (off * ataSectSize)⟩

def descriptor (irq : Bool) (buf : UInt32) (off size : Nat) : Prd :=
  ⟨phys (buf.toNat + off), 0, size - 1, irq⟩

/-- The commands are for the first `cnt` blocks of a transfer, in order, and the buffer of each lies
    behind the bytes of those before it. -/
structure Commands (adev : AtaDevice) (startblk : UInt64) (buf : UInt32) (cnt : Nat)
    (cmds : List Command) : Prop where
  split : Split adev.bdMaxblks cnt (command startblk buf) cmds
  blocks : cmds.flatMap Command.blocks = (List.range cnt).map fun k => startblk + UInt64.ofNat k

structure Descriptors (irq : Bool) (buf : UInt32) (len : Nat) (prds : List Prd) : Prop where
  split : Split ahciMaxPrdDataSz len (descriptor irq buf) prds
  bytes : phys buf.toNat + len ≤ 2^29 → prds.flatMap Prd.bytes = List.range' (phys buf.toNat) len

variable {adev : AtaDevice} {buf : UInt32} {cnt len : Nat}

theorem bdMaxblks_pos : 0 < adev.bdMaxblks := by
  rw [AtaDevice.bdMaxblks]
  split <;> decide

theorem bdMaxblks_le : adev.bdMaxblks ≤ ataMaxSectorsLba48 := by
  rw [AtaDevice.bdMaxblks]
  split <;> decide

theorem phys_high (s64a : Bool) (a : Nat) : (if s64a then phys a / 2^16 / 2^16 else 0) = 0 := by
  have small : phys a < 2^29 := Nat.mod_lt a (by decide)
  split
  · omega
  · rfl

theorem fillLoop_split (s64a irq : Bool) {a : UInt32} {off count : Nat}
    (same : phys a.toNat = phys (buf.toNat + off)) (pos : 0 < len)
    (short : len < 2^32) (enough : (len - 1) / ahciMaxPrdDataSz + 1 = count) :
    ∃ sizes, Portions ahciMaxPrdDataSz len sizes ∧ fillLoop s64a irq count a len =
      layout (descriptor irq buf) off sizes := by
  have most : ahciMaxPrdDataSz = 4194304 := rfl
  induction count generalizing a off len with
  | zero => cases enough
  | succ count ih =>
    have less : wsub len 1 = len - 1 := wsub_of_le pos short
    rw [most] at enough
    by_cases last : len ≤ ahciMaxPrdDataSz
    · have size : (if len < ahciMaxPrdDataSz then wsub len 1 else ahciMaxPrdDataSz - 1) = len - 1 := by
        split
        · exact less
        · omega
      have only : count = 0 := by omega
      refine ⟨[len], (Portions.none.cons pos last : _), ?_⟩
      rw [only, fillLoop, fillLoop, phys_high, size, same]
      rfl
    · have size : (if len < ahciMaxPrdDataSz then wsub len 1 else ahciMaxPrdDataSz - 1) =
          ahciMaxPrdDataSz - 1 :=
        if_neg (by omega)
      have left : wsub len ahciMaxPrdDataSz = len - ahciMaxPrdDataSz := wsub_of_le (by omega) short
      have onward : phys (a + UInt32.ofNat ahciMaxPrdDataSz).toNat =
          phys (buf.toNat + (off + ahciMaxPrdDataSz)) := by
        simp only [phys, UInt32.toNat_add, UInt32.toNat_ofNat'] at same ⊢
        omega
      have fewer : (len - ahciMaxPrdDataSz - 1) / ahciMaxPrdDataSz + 1 = count := by
        rw [most]
        omega
      obtain ⟨sizes, portions, rest⟩ := ih onward (by omega) (by omega) fewer
      refine ⟨ahciMaxPrdDataSz :: sizes, ?_, ?_⟩
      · have whole := portions.cons (Nat.lt_of_lt_of_eq (by decide) most.symm) (Nat.le_refl ahciMaxPrdDataSz)
        rwa [Nat.add_sub_cancel' (by omega)] at whole
      · rw [fillLoop, left, rest, phys_high, size, same]
        rfl

theorem descriptor_bytes {irq : Bool} {off size : Nat} (pos : 0 < size)
    (inside : phys buf.toNat + off < 2^29) :
    (descriptor irq buf off size).bytes = (List.range' off size).map (phys buf.toNat + ·) := by
  have first : phys (buf.toNat + off) = phys buf.toNat + off := by
    simp only [phys] at inside ⊢
    omega
  have size : size - 1 + 1 = size := Nat.sub_add_cancel pos
  rw [Prd.bytes, descriptor, first, size, Nat.mul_zero, Nat.add_zero, List.map_add_range']

theorem descriptors_cover (s64a irq : Bool) (buf : UInt32) (pos : 0 < len)
    (fits : len ≤ ahciMaxPrdCount * ahciMaxPrdDataSz) :
    Descriptors irq buf len (ahciFillPrd s64a buf len irq) := by
  have limit : ahciMaxPrdCount * ahciMaxPrdDataSz = 234881024 := rfl
  have short : len < 2^32 := by omega
  have count : ¬ wsub len 1 / ahciMaxPrdDataSz + 1 > ahciMaxPrdCount := by
    rw [wsub_of_le pos short, ahciMaxPrdDataSz, ahciMaxPrdCount]
    omega
  have start : phys buf.toNat = phys (buf.toNat + 0) := rfl
  obtain ⟨sizes, portions, filled⟩ := fillLoop_split s64a irq start pos short rfl
  rw [ahciFillPrd, if_neg count, wsub_of_le pos short, filled]
  constructor
  · exact ⟨sizes, portions, rfl⟩
  · intro segment
    have covered := layout_flatMap (descriptor irq buf) Prd.bytes (phys buf.toNat + ·) sizes
      (Nat.le_refl (0 + sizes.sum))
    rw [Nat.zero_add, portions.sum] at covered
    rw [covered, List.map_add_range', Nat.add_zero]
    intro off size member bound
    have piece := (portions.piece size member).1
    exact descriptor_bytes piece (by omega)

theorem command_blocks (startblk : UInt64) (off : Nat) :
    (command startblk buf off cnt).blocks = (List.range' off cnt).map fun k => startblk + UInt64.ofNat k := by
  rw [Command.blocks, command, List.range'_eq_map_range, List.map_map]
  congr 1
  funext k
  rw [Function.comp, UInt64.ofNat_add, UInt64.add_assoc]

theorem command_next {startblk : UInt64} (off more : Nat) :
    (command startblk buf off cnt).blkno + UInt64.ofNat more =
      (command startblk buf (off + more) cnt).blkno ∧
    (command startblk buf off cnt).buf + UInt32.ofNat (more * ataSectSize) =
      (command startblk buf (off + more) cnt).buf := by
  simp only [command, UInt64.ofNat_add, UInt64.add_assoc, Nat.add_mul, UInt32.ofNat_add,
    UInt32.add_assoc, and_self]

theorem commands_cover {sizes : List Nat} (startblk : UInt64) (portions : Portions adev.bdMaxblks cnt sizes) :
    Commands adev startblk buf cnt (layout (command startblk buf) 0 sizes) := by
  constructor
  · exact ⟨sizes, portions, rfl⟩
  · have covered := layout_flatMap (command startblk buf) Command.blocks
      (fun k => startblk + UInt64.ofNat k) sizes
      (Nat.le_refl (0 + sizes.sum)) fun off size _ _ => command_blocks startblk off
    rwa [portions.sum, ← List.range_eq_range'] at covered

structure Going (adev : AtaDevice) (startblk : UInt64) (buf : UInt32) (blkcnt : Nat) (t : Transfer)
    (sizes : List Nat) : Prop where
  portions : Portions adev.bdMaxblks (blkcnt - t.remain) sizes
  remain : t.remain ≤ blkcnt
  block : t.startblk = (command startblk buf (blkcnt - t.remain) 0).blkno
  address : t.buf = (command startblk buf (blkcnt - t.remain) 0).buf
  issued : t.issued = layout (command startblk buf) 0 sizes

variable {startblk : UInt64} {blkcnt : Nat} {t : Transfer} {sizes : List Nat}

theorem Going.issue (going : Going adev startblk buf blkcnt t sizes) (blks : Nat) :
    t.issued ++ [⟨t.startblk, blks, t.buf⟩] = layout (command startblk buf) 0 (sizes ++ [blks]) := by
  rw [layout_append, ← going.issued, Nat.zero_add, going.portions.sum, going.block, going.address]
  rfl

def Ended (adev : AtaDevice) (blkDataRw : List Command → Nat) (startblk : UInt64) (buf : UInt32)
    (blkcnt : Nat) (result : Int × List Command) : Prop :=
  ∃ sizes, result.2 = layout (command startblk buf) 0 sizes ∧
    (result.1 = blkcnt ∧ Portions adev.bdMaxblks blkcnt sizes ∨
      result.1 = -1 ∧ blkDataRw result.2 ≠ 0 ∧ ∃ cnt ≤ blkcnt, Portions adev.bdMaxblks cnt sizes)

theorem Going.pass (blkDataRw : List Command → Nat) (going : Going adev startblk buf blkcnt t sizes) :
    (∃ u, dataPass adev blkDataRw blkcnt t = some (.again u) ∧
      (∃ sizes, Going adev startblk buf blkcnt u sizes) ∧
      u.remain < t.remain) ∨
    ∃ result, dataPass adev blkDataRw blkcnt t = some (.leave result) ∧
      Ended adev blkDataRw startblk buf blkcnt result := by
  have remain := going.remain
  by_cases finished : t.remain = 0
  · right
    have portions := going.portions
    rw [finished, Nat.sub_zero] at portions
    refine ⟨_, if_pos finished, sizes, going.issued, .inl ⟨?_, portions⟩⟩
    rw [finished, Nat.sub_zero]
  · rw [dataPass, if_neg finished]
    have most := @bdMaxblks_pos adev
    generalize chosen : (if t.remain > adev.bdMaxblks then adev.bdMaxblks else t.remain) = blks
    have bounds : 0 < blks ∧ blks ≤ adev.bdMaxblks ∧ blks ≤ t.remain := by
      split at chosen <;> omega
    have done : blkcnt - t.remain + blks = blkcnt - (t.remain - blks) := by omega
    have portions := going.portions.snoc bounds.1 bounds.2.1
    have issued := going.issue blks
    dsimp only
    rw [issued]
    by_cases failed : blkDataRw (layout (command startblk buf) 0 (sizes ++ [blks])) = 0
    · left
      have next := @command_next buf 0 startblk (blkcnt - t.remain) blks
      rw [← going.block, ← going.address, done] at next
      rw [done] at portions
      exact ⟨_, if_neg (not_not.mpr failed), ⟨_, portions, (Nat.sub_le _ _).trans remain, next.1,
        next.2, rfl⟩,
        Nat.sub_lt (Nat.pos_of_ne_zero finished) bounds.1⟩
    · right
      exact ⟨_, if_pos failed, _, rfl, .inr ⟨rfl, failed, _, by omega, portions⟩⟩

theorem command_covered (s64a irq : Bool) (off : Nat) {size : Nat}
    (piece : 0 < size ∧ size ≤ adev.bdMaxblks) :
    size ≤ adev.bdMaxblks ∧ Descriptors irq (command startblk buf off size).buf (ataSectSize * size)
      (ahciFillPrd s64a (command startblk buf off size).buf (command startblk buf off size).bytes irq) := by
  have small : size ≤ 65535 := piece.2.trans bdMaxblks_le
  have bytes : (command startblk buf off size).bytes = ataSectSize * size := by
    apply wrap_of_lt
    rw [ataSectSize, command]
    dsimp only
    omega
  rw [bytes]
  refine ⟨piece.2, descriptors_cover s64a irq _ (Nat.mul_pos (by decide) piece.1) ?_⟩
  rw [ataSectSize, ahciMaxPrdCount, ahciMaxPrdDataSz]
  omega

/-- The commands of a transfer cover its blocks, up to the first one that fails, and the descriptors
    of each of them cover its buffer. -/
theorem transfer_split (adev : AtaDevice) (blkDataRw : List Command → Nat) (startblk : UInt64)
    (blkcnt : Nat) (buf : UInt32) (s64a irq : Bool) :
    ∃ ret cmds cnt, ataBlkDataRw adev blkDataRw startblk blkcnt buf = some (ret, cmds) ∧
      (ret = blkcnt ∧ cnt = blkcnt ∨ ret = -1 ∧ cnt ≤ blkcnt ∧ blkDataRw cmds ≠ 0) ∧
      Commands adev startblk buf cnt cmds ∧
      ∀ c ∈ cmds, c.blkcnt ≤ adev.bdMaxblks ∧ Descriptors irq c.buf (ataSectSize * c.blkcnt)
      (ahciFillPrd s64a c.buf c.bytes irq) := by
  have none : blkcnt - blkcnt = 0 := Nat.sub_self blkcnt
  have start : Going adev startblk buf blkcnt ⟨blkcnt, startblk, buf, []⟩ [] := by
    refine ⟨?_, Nat.le_refl _, ?_, ?_, rfl⟩ <;> dsimp only <;> rw [none]
    · exact Portions.none
    · exact (UInt64.add_zero startblk).symm
    · exact (UInt32.add_zero buf).symm
  obtain ⟨⟨ret, cmds⟩, left, sizes, laid, ended⟩ :=
    loop_variant (fun t => ∃ sizes, Going adev startblk buf blkcnt t sizes)
    Transfer.remain (Ended adev blkDataRw startblk buf blkcnt) (fun t ⟨_, going⟩ =>
      going.pass blkDataRw) (blkcnt + 1) _
    ⟨[], start⟩ (Nat.lt_succ_self _)
  dsimp only at laid ended
  have each : ∀ {cnt}, Portions adev.bdMaxblks cnt sizes → ∀ c ∈ cmds, c.blkcnt ≤ adev.bdMaxblks ∧
      Descriptors irq c.buf (ataSectSize * c.blkcnt) (ahciFillPrd s64a c.buf c.bytes irq) := by
    intro cnt portions
    rw [laid]
    exact forall_layout sizes fun off size member => command_covered s64a irq off (portions.piece size member)
  rcases ended with ⟨whole, portions⟩ | ⟨failure, failed, cnt, bound, portions⟩
  · exact ⟨ret, cmds, blkcnt, left, .inl ⟨whole, rfl⟩, laid ▸ commands_cover startblk portions, each portions⟩
  · exact ⟨ret, cmds, cnt, left, .inr ⟨failure, bound, failed⟩, laid ▸
      commands_cover startblk portions, each portions⟩

end Embryo.Drivers
