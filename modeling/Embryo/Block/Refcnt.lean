import Embryo.Block.File
import Embryo.Machine.CString
import Embryo.Machine.Runs

namespace Embryo.Block

open Embryo.Machine

def enodev : Int := 19

def einval : Int := 22

structure Registered where
  bdName : Str
  bdLba : Nat
  bdBlkSz : Nat
  bdRefcnt : UInt32

/-- A `block_file`. `bfPriv` is the place of its device on the list, and nothing while it is not open. -/
structure DeviceFile where
  bfName : Str
  bfPriv : Option Nat
  bfOflags : AccMode
  bfOffs : Int
  bfBase : Int
  bfEnd : Int

structure Devices where
  blkdevList : List Registered
  files : List DeviceFile

namespace Devices

def addRefs (d : Devices) (i : Nat) (n : UInt32) : Devices :=
  { d with blkdevList := d.blkdevList.modify i fun dev => { dev with bdRefcnt := dev.bdRefcnt + n } }

def place (d : Devices) (devname : Str) : Option Nat := d.blkdevList.findIdx? fun dev => dev.bdName = devname

def blkdevLookup (d : Devices) (devname : Str) : Option Nat × Devices :=
  match d.place devname with
  | none => (none, d)
  | some i => (some i, d.addRefs i 1)

def opened (f : DeviceFile) (i : Nat) (dev : Registered) (flags : AccMode) : DeviceFile :=
  { f with
    bfPriv := some i, bfOflags := flags, bfOffs := 0, bfBase := 0, bfEnd := loff (dev.bdLba * dev.bdBlkSz) }

/-- The function called with the `j`th file, if there is one. -/
def blkfileOpen (d : Devices) (j : Nat) (flags : AccMode) : Int × Devices :=
  match d.files[j]? with
  | none => (0, d)
  | some f =>
    match d.blkdevLookup f.bfName with
    | (none, d) => (enodev, d)
    | (some i, d) =>
      match d.blkdevList[i]? with
      | none => (0, d)
      | some dev => (0, { d with files := d.files.set j (opened f i dev flags) })

def blkfileClose (d : Devices) (j : Nat) : Int × Devices :=
  match d.files[j]? with
  | none => (0, d)
  | some f =>
    match f.bfPriv with
    | none => (einval, d)
    | some i => (0, { d.addRefs i (-1) with files := d.files.set j { f with bfPriv := none } })

def ataXfer (d : Devices) (name : Str) (res : Int) : Int × Devices :=
  match d.blkdevLookup name with
  | (none, d) => (-1, d)
  | (some _, d) => if res < 0 then (-1, d) else (0, d)

def ataWrite (d : Devices) (name : Str) (res : Int) : Int × Devices := d.ataXfer name res

def ataRead (d : Devices) (name : Str) (res : Int) : Int × Devices := d.ataXfer name res

def ahciDiskDetach (d : Devices) (i : Nat) : Bool × Devices :=
  let d := d.addRefs i (-1)
  ((d.blkdevList[i]?.map (·.bdRefcnt)) = some 0, d)

end Devices

inductive DeviceCall
  | open (j : Nat) (flags : AccMode)
  | close (j : Nat)
  | ataRead (name : Str) (res : Int)
  | ataWrite (name : Str) (res : Int)

namespace Devices

def call (d : Devices) : DeviceCall → Devices
  | .open j flags => (d.blkfileOpen j flags).2
  | .close j => (d.blkfileClose j).2
  | .ataRead name res => (d.ataRead name res).2
  | .ataWrite name res => (d.ataWrite name res).2

def openOn (d : Devices) (i : Nat) : Nat := d.files.countP fun f => f.bfPriv = some i

def Counted (d : Devices) : Prop :=
  ∀ (i : Nat) (dev : Registered), d.blkdevList[i]? = some dev → dev.bdRefcnt.toNat = 1 + d.openOn i

def Balanced (d : Devices) : DeviceCall → Prop
  | .open j _ => ∀ f, d.files[j]? = some f → d.place f.bfName ≠ none → f.bfPriv = none
  | .close _ => True
  | .ataRead name _ => d.place name = none
  | .ataWrite name _ => d.place name = none

structure Fresh (d : Devices) : Prop where
  attached : ∀ dev ∈ d.blkdevList, dev.bdRefcnt = 1
  closed : ∀ f ∈ d.files, f.bfPriv = none

def fileSize : Nat := 56

structure Sound (d : Devices) : Prop where
  found : ∀ f ∈ d.files, ∀ i, f.bfPriv = some i → d.place f.bfName = some i
  room : d.files.length * fileSize ≤ 2^32

section

variable {d d' : Devices} {i j k : Nat} {f f' : DeviceFile} {dev : Registered} {name : Str}

theorem names_addRefs (d : Devices) (i : Nat) (n : UInt32) :
    (d.addRefs i n).blkdevList.map Registered.bdName = d.blkdevList.map Registered.bdName := by
  apply List.ext_getElem?
  intro k
  rw [addRefs, List.getElem?_map, List.getElem?_map, List.getElem?_modify]
  cases d.blkdevList[k]? with
  | none => rfl
  | some dev => exact congrArg some (apply_ite Registered.bdName _ _ _ |>.trans (ite_self _))

theorem place_congr (same : d'.blkdevList.map Registered.bdName =
    d.blkdevList.map Registered.bdName) (name : Str) :
    d'.place name = d.place name := by
  have through : ∀ d : Devices, d.place name = (d.blkdevList.map Registered.bdName).findIdx?
      (fun bdName => bdName = name) := by
    intro d
    rw [List.findIdx?_map]
    rfl
  rw [through, through, same]

theorem place_known (found : d.place name = some i) : ∃ dev, d.blkdevList[i]? = some dev :=
  ⟨_, List.getElem?_eq_getElem (List.findIdx?_eq_some_iff_getElem.mp found).1⟩

theorem addRefs_entry (there : d.blkdevList[i]? = some dev) (n : UInt32) :
    (d.addRefs i n).blkdevList[i]? = some { dev with bdRefcnt := dev.bdRefcnt + n } := by
  rw [addRefs, List.getElem?_modify, there]
  simp

theorem openOn_le (d : Devices) (i : Nat) : d.openOn i ≤ d.files.length := List.countP_le_length

theorem openOn_set (there : d.files[j]? = some f) (files : d'.files = d.files.set j f') (k : Nat) :
    d'.openOn k + (if f.bfPriv = some k then 1 else 0) = d.openOn k + if f'.bfPriv = some k then 1
      else 0 := by
  obtain ⟨inside, held⟩ := List.getElem?_eq_some_iff.mp there
  have counted : (if f.bfPriv = some k then 1 else 0) ≤ d.openOn k := by
    split
    · rename_i here
      exact List.countP_pos_iff.mpr ⟨f, List.mem_of_getElem? there, by simpa using here⟩
    · exact Nat.zero_le _
  have replaced := List.countP_set (p := fun f => decide (f.bfPriv = some k)) (a := f') inside
  simp only [held, decide_eq_true_eq] at replaced
  unfold openOn at counted ⊢
  rw [files]
  omega

theorem counted_iff (counted : d.Counted) {n : UInt32} (refs : d'.blkdevList = (d.addRefs i n).blkdevList)
    (there : d.blkdevList[i]? = some dev) (others : ∀ k, k ≠ i → d'.openOn k = d.openOn k) :
    d'.Counted ↔ (dev.bdRefcnt + n).toNat = 1 + d'.openOn i := by
  have entry := addRefs_entry there n
  constructor
  · exact fun after => after i _ (refs ▸ entry)
  · intro here k dev' held
    rw [refs] at held
    by_cases same : i = k
    · subst same
      rw [entry] at held
      cases held
      exact here
    · rw [addRefs, List.getElem?_modify_ne _ _ same] at held
      rw [others k (Ne.symm same)]
      exact counted k dev' held

theorem Sound.add_one (sound : d.Sound) (there : d.blkdevList[i]? = some dev) (counted : d.Counted) :
    (dev.bdRefcnt + 1).toNat = 2 + d.openOn i := by
  have held := counted i dev there
  have few := d.openOn_le i
  have room := sound.room
  rw [fileSize] at room
  have one : (1 : UInt32).toNat = 1 := rfl
  rw [UInt32.toNat_add, one]
  omega

theorem Sound.set (sound : d.Sound)
    (names : d'.blkdevList.map Registered.bdName = d.blkdevList.map Registered.bdName)
    (files : d'.files = d.files.set j f')
    (fits : ∀ i, f'.bfPriv = some i → d.place f'.bfName = some i) : d'.Sound := by
  constructor
  · intro f member i held
    rw [place_congr names]
    rw [files] at member
    rcases List.mem_or_eq_of_mem_set member with old | rfl
    · exact sound.found f old i held
    · exact fits i held
  · rw [files, List.length_set]
    exact sound.room

theorem Sound.addRefs (sound : d.Sound) (i : Nat) (n : UInt32) : (d.addRefs i n).Sound where
  room := sound.room
  found := by
    intro f member k held
    rw [place_congr (names_addRefs d i n)]
    exact sound.found f member k held

theorem lookup_none (missing : d.place name = none) : d.blkdevLookup name = (none, d) := by
  rw [blkdevLookup, missing]

theorem lookup_some (found : d.place name = some i) : d.blkdevLookup name = (some i, d.addRefs i 1) := by
  rw [blkdevLookup, found]

theorem ataXfer_devices (d : Devices) (name : Str) (res : Int) :
    (d.ataXfer name res).2 = (d.blkdevLookup name).2 := by
  unfold ataXfer
  rcases d.blkdevLookup name with ⟨_ | i, looked⟩
  · rfl
  · simp only
    split <;> rfl

theorem ataXfer_iff (sound : d.Sound) (counted : d.Counted) (name : Str) (res : Int) :
    (d.ataXfer name res).2.Sound ∧ ((d.ataXfer name res).2.Counted ↔ d.place name = none) := by
  rw [ataXfer_devices]
  cases found : d.place name with
  | none =>
    rw [lookup_none found]
    exact ⟨sound, iff_of_true counted rfl⟩
  | some i =>
    obtain ⟨dev, there⟩ := place_known found
    rw [lookup_some found]
    refine ⟨sound.addRefs i 1, ?_⟩
    rw [counted_iff counted rfl there fun _ _ => rfl, sound.add_one there counted]
    apply iff_of_false _ nofun
    show ¬ 2 + d.openOn i = 1 + d.openOn i
    omega

theorem blkfileOpen_refused (there : d.files[j]? = some f) (missing : d.place f.bfName = none)
    (flags : AccMode) :
    d.blkfileOpen j flags = (enodev, d) := by
  rw [blkfileOpen, there]
  simp only [lookup_none missing]

theorem blkfileOpen_opened (there : d.files[j]? = some f) (found : d.place f.bfName = some i)
    (flags : AccMode) :
    ∃ d' f', d.blkfileOpen j flags = (0, d') ∧ d'.blkdevList = (d.addRefs i 1).blkdevList ∧
      d'.files = d.files.set j f' ∧
      f'.bfName = f.bfName ∧ f'.bfPriv = some i := by
  obtain ⟨dev, known⟩ := place_known found
  rw [blkfileOpen, there]
  simp only [lookup_some found, addRefs_entry known 1]
  exact ⟨_, _, rfl, rfl, rfl, rfl, rfl⟩

theorem blkfileOpen_iff (sound : d.Sound) (counted : d.Counted) (j : Nat) (flags : AccMode) :
    (d.blkfileOpen j flags).2.Sound ∧ ((d.blkfileOpen j flags).2.Counted ↔ d.Balanced (.open j flags)) := by
  cases there : d.files[j]? with
  | none =>
    have nobody : d.Balanced (.open j flags) := by
      intro f held
      rw [there] at held
      cases held
    rw [blkfileOpen, there]
    exact ⟨sound, iff_of_true counted nobody⟩
  | some f =>
    have balanced : d.Balanced (.open j flags) ↔ (d.place f.bfName ≠ none → f.bfPriv = none) := by
      rw [Balanced, there]
      simp only [Option.some.injEq, forall_eq']
    rw [balanced]
    cases found : d.place f.bfName with
    | none =>
      rw [blkfileOpen_refused there found]
      exact ⟨sound, iff_of_true counted fun known => absurd rfl known⟩
    | some i =>
      obtain ⟨dev, known⟩ := place_known found
      obtain ⟨d', f', result, refs, files, name, priv⟩ := blkfileOpen_opened there found flags
      rw [result]
      have before : ∀ k, f.bfPriv = some k → k = i := by
        intro k held
        have same := sound.found f (List.mem_of_getElem? there) k held
        rw [found] at same
        exact (Option.some.inj same).symm
      have moved := openOn_set there files
      rw [priv] at moved
      constructor
      · apply sound.set (refs ▸ names_addRefs d i 1) files
        rintro k held
        rw [name, ← held, priv]
        exact found
      · rw [counted_iff counted refs known, sound.add_one known counted]
        · have here := moved i
          rw [if_pos rfl] at here
          by_cases closed : f.bfPriv = none
          · rw [closed, if_neg nofun] at here
            apply iff_of_true _ fun _ => closed
            omega
          · obtain ⟨k, held⟩ := Option.ne_none_iff_exists'.mp closed
            rw [held, before k held, if_pos rfl] at here
            apply iff_of_false _ fun all => closed (all nofun)
            omega
        · intro k other
          have elsewhere := moved k
          rwa [if_neg fun held => other (before k held), if_neg fun held =>
            other (Option.some.inj held).symm] at elsewhere

theorem blkfileClose_idle (there : d.files[j]? = some f) (closed : f.bfPriv = none) :
    d.blkfileClose j = (einval, d) := by
  rw [blkfileClose, there]
  simp only [closed]

theorem blkfileClose_closed (there : d.files[j]? = some f) (held : f.bfPriv = some i) :
    ∃ d' f', d.blkfileClose j = (0, d') ∧ d'.blkdevList = (d.addRefs i (-1)).blkdevList ∧
      d'.files = d.files.set j f' ∧
      f'.bfPriv = none := by
  rw [blkfileClose, there]
  simp only [held]
  exact ⟨_, _, rfl, rfl, rfl, rfl⟩

theorem blkfileClose_counted (sound : d.Sound) (counted : d.Counted) (j : Nat) :
    (d.blkfileClose j).2.Sound ∧ (d.blkfileClose j).2.Counted := by
  cases there : d.files[j]? with
  | none =>
    rw [blkfileClose, there]
    exact ⟨sound, counted⟩
  | some f =>
    cases held : f.bfPriv with
    | none =>
      rw [blkfileClose_idle there held]
      exact ⟨sound, counted⟩
    | some i =>
      obtain ⟨dev, known⟩ := place_known (sound.found f (List.mem_of_getElem? there) i held)
      obtain ⟨d', f', result, refs, files, priv⟩ := blkfileClose_closed there held
      rw [result]
      have moved := openOn_set there files
      rw [held, priv] at moved
      constructor
      · apply sound.set (refs ▸ names_addRefs d i (-1)) files
        rw [priv]
        nofun
      · apply (counted_iff counted refs known _).mpr
        · have here := moved i
          rw [if_pos rfl, if_neg nofun] at here
          have before := counted i dev known
          have least : (-1 : UInt32).toNat = 2^32 - 1 := rfl
          rw [UInt32.toNat_add, least, before]
          have few := d.openOn_le i
          have room := sound.room
          rw [fileSize] at room
          omega
        · intro k other
          have elsewhere := moved k
          rwa [if_neg fun same => other (Option.some.inj same).symm, if_neg nofun] at elsewhere

theorem call_iff (sound : d.Sound) (counted : d.Counted) (c : DeviceCall) :
    (d.call c).Sound ∧ ((d.call c).Counted ↔ d.Balanced c) := by
  cases c with
  | «open» j flags => exact blkfileOpen_iff sound counted j flags
  | close j =>
    obtain ⟨kept, after⟩ := blkfileClose_counted sound counted j
    exact ⟨kept, iff_of_true after True.intro⟩
  | ataRead name res => exact ataXfer_iff sound counted name res
  | ataWrite name res => exact ataXfer_iff sound counted name res

theorem Fresh.counted (fresh : d.Fresh) : d.Counted := by
  intro i dev held
  have idle : d.openOn i = 0 := by
    apply List.countP_eq_zero.mpr
    intro f member
    rw [fresh.closed f member]
    exact Bool.false_ne_true
  rw [idle, fresh.attached dev (List.mem_of_getElem? held)]
  rfl

theorem Fresh.sound (fresh : d.Fresh) (room : d.files.length * fileSize ≤ 2^32) : d.Sound := by
  apply Sound.mk _ room
  intro f member i held
  rw [fresh.closed f member] at held
  cases held

theorem Sound.detach (sound : d.Sound) (counted : d.Counted) (there : d.blkdevList[i]? = some dev) :
    (d.ahciDiskDetach i).1 = true ↔ d.openOn i = 0 := by
  have held := counted i dev there
  have few := d.openOn_le i
  have room := sound.room
  rw [fileSize] at room
  have zero : dev.bdRefcnt + -1 = 0 ↔ d.openOn i = 0 := by
    have least : (-1 : UInt32).toNat = 2^32 - 1 := rfl
    have none : (0 : UInt32).toNat = 0 := rfl
    rw [← UInt32.toNat_inj, UInt32.toNat_add, least, none, held]
    omega
  rw [ahciDiskDetach, addRefs_entry there]
  simpa using zero

end

theorem refcnt_balanced_iff (d : Devices) (fresh : d.Fresh)
    (room : d.files.length * fileSize ≤ 2^32) (calls : List DeviceCall) :
    Always (fun d c => some (d.call c)) Counted d calls ↔
      Each (fun d c => some (d.call c)) Balanced d calls := by
  apply always_iff Sound _ _ (fresh.sound room) fresh.counted
  · intro d c sound counted
    rw [← (call_iff sound counted c).2]
    simp only [Option.some.injEq, exists_eq_left']
  · rintro d c _ sound counted ⟨⟩
    exact (call_iff sound counted c).1

def oneDisk : Devices := ⟨[⟨[115, 100, 97], 1000, 512, 1⟩], [⟨[115, 100, 97], none, .rdonly, 0, 0, 0⟩]⟩

theorem oneDisk_fresh : oneDisk.Fresh := ⟨by decide, by decide⟩

theorem opened_and_closed :
    Always (fun d c => some (d.call c)) Counted oneDisk [.open 0 .rdonly, .close 0] := by
  refine (refcnt_balanced_iff oneDisk oneDisk_fresh (by decide) _).mpr ⟨?_, ?_⟩
  · rintro f ⟨⟩ _
    rfl
  · exact fun _ _ => ⟨True.intro, fun _ _ => True.intro⟩

/-- A read by the shell leaves a reference behind, and the idle disk is never released. -/
theorem read_keeps_reference :
    ¬ Always (fun d c => some (d.call c)) Counted oneDisk [.ataRead [115, 100, 97] 1] ∧
    ((oneDisk.call (.ataRead [115, 100, 97] 1)).ahciDiskDetach 0).1 = false := by
  constructor
  · rintro ⟨_, _, ⟨⟩, counted⟩
    exact absurd (counted 0 _ rfl) (by decide)
  · decide

end Devices

end Embryo.Block
