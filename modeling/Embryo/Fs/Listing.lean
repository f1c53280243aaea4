import Embryo.Fs.File
import Embryo.Fs.Walk

namespace Embryo.Fs

open Embryo.Machine Embryo.Block

structure DirentInfo where
  dirIdx : Nat
  dirName : Name
deriving DecidableEq, Repr

/-- The loop of `EIOCGDIRENT` over the entries of a directory: `cp` and `idx`. -/
def direntPass (data : List UInt8) (dirIdx : Nat) (s : Nat × Nat) :
    Option (Pass (Nat × Nat) (Option DirEntry)) :=
  let (cp, idx) := s
  if cp < data.length then
    let e := entryAt data cp
    if e.recLen = 0 ∨ e.nameLen = 0 then some (.leave none)
    else if idx = dirIdx then some (.leave (some e))
    else some (.again (cp + e.recLen, wrap (idx + 1)))
  else some (.leave none)

/-- `ext2_ioctl` with `EIOCGDIRENT`: what is in the `dirent_info` afterwards, nothing where it returns -1. -/
def ext2IoctlDirent (ef : Ext2File) (di : DirentInfo) : Option (Option DirentInfo × Ext2File) :=
  if ¬ sIsdir ef.inode.iMode then some (none, ef)
  else if ¬ ef.vol.malloc 3 then some (none, ef)
  else
    match ext2ReadDataBlk ef.vol ef.bf ef.inode.iSize 0 ef.inode with
    | none => none
    | some (count, data, bf) =>
      if count ≠ some ef.inode.iSize then some (none, { ef with bf })
      else
        match loop (direntPass data di.dirIdx) (data.length + 1) (0, 0) with
        | none => none
        | some none => some (some di, { ef with bf })
        | some (some e) => some (some ⟨wrap (di.dirIdx + 1), e.src⟩, { ef with bf })

structure Dir where
  dName : Name
  idx : Nat
  ef : Ext2File

/-- What `readdir` returns: the entry, or `NULL`, where `errno` is 0 at the end of the directory. -/
inductive Read where
  | dirent (dName : Name)
  | atEnd
  | failed
deriving DecidableEq, Repr

def readdir (dp : Dir) : Option (Read × Dir) :=
  match ext2IoctlDirent dp.ef ⟨dp.idx, dp.dName⟩ with
  | none => none
  | some (none, ef) => some (.failed, { dp with ef })
  | some (some info, ef) =>
    if info.dirIdx = dp.idx then some (.atEnd, ⟨info.dirName, dp.idx, ef⟩)
    else some (.dirent info.dirName, ⟨info.dirName, wrap (dp.idx + 1), ef⟩)

/-- The names that `readdir` returns one after the other, until it comes to the end of the directory. -/
def readAll : Nat → Dir → Option (List Name × Dir)
  | 0, _ => none
  | fuel + 1, dp =>
    match readdir dp with
    | some (.dirent dName, dp) => (readAll fuel dp).map fun rest => (dName :: rest.1, rest.2)
    | some (.atEnd, dp) => some ([], dp)
    | _ => none

def scanned (entries : List DirEntry) : List DirEntry := entries.takeWhile fun e => e.nameLen ≠ 0

/-- The directory with number `ino`: its inode and blocks can be read, entries tile them, and the
    names in use are names. -/
structure Listed (fs : FileSystem) (size : Nat) (disk : Memory) (ino : Nat)
    (entries : List DirEntry) : Prop where
  directory : sIsdir (inodeAt fs disk ino).iMode
  present : Present fs size disk ino
  mapped : Mapped fs.vol size disk (inodeAt fs disk ino) 0 (inodeAt fs disk ino).iSize
  narrow : Narrow fs.vol 0 (inodeAt fs disk ino).iSize
  tiled : Tiled (contents fs disk ino) 0 entries
  plain : ∀ e ∈ entries, e.live → 0 ∉ e.name ∧ slash ∉ e.name

/-- `ext2_lookup_inode` finds the entry in the directory for the name. -/
def Finds (data : List UInt8) (c : Name) (e : DirEntry) : Prop :=
  c ≠ [] ∧ slash ∉ c ∧ c.length ≤ ext2NameLen ∧ ∃ cp, loop (scanPass data c) (data.length + 1) 0 =
    some (some (cp, e))

variable {fs : FileSystem} {size ino : Nat} {disk : Memory} {entries : List DirEntry}
  {data : List UInt8} {bf : BlockFile}

theorem scan_first {c : Name} {cp fuel : Nat} (tiled : Tiled data cp entries)
    (enough : data.length - cp < fuel) :
    loop (scanPass data c) fuel cp = some ((placed cp (scanned entries)).find? fun x => x.2.src = c) := by
  induction entries generalizing cp fuel with
  | nil =>
    apply loop_leave (by omega)
    rw [scanPass, if_neg (by have here : cp = data.length := tiled; omega)]
    rfl
  | cons e entries ih =>
    obtain ⟨inside, here, long, -, rest⟩ := tiled
    obtain ⟨fuel, rfl⟩ : ∃ more, fuel = more + 1 := ⟨fuel - 1, by omega⟩
    have positive : ¬ e.recLen = 0 := by omega
    unfold scanned
    by_cases empty : e.nameLen = 0
    · rw [List.takeWhile_cons_of_neg (by simp [empty])]
      apply loop_leave (by omega)
      rw [scanPass, if_pos inside]
      dsimp only
      rw [here, if_pos (.inr empty)]
      rfl
    · rw [List.takeWhile_cons_of_pos (by simp [empty]), placed]
      by_cases isNamed : e.src = c
      · rw [List.find?_cons_of_pos (by simp [isNamed])]
        apply loop_leave (by omega)
        rw [scanPass, if_pos inside]
        dsimp only
        rw [here, if_neg (by simp [positive, empty]), if_pos isNamed]
      · rw [List.find?_cons_of_neg (by simp [isNamed])]
        have again : scanPass data c cp = some (.again (cp + e.recLen)) := by
          rw [scanPass, if_pos inside]
          dsimp only
          rw [here, if_neg (by simp [positive, empty]), if_neg isNamed]
        rw [loop_again again]
        exact ih rest (by omega)

theorem dirent_scan {dirIdx cp idx fuel : Nat} (tiled : Tiled data cp entries) (low : idx ≤ dirIdx)
    (small : idx + entries.length < 2^32) (enough : data.length - cp < fuel) :
    loop (direntPass data dirIdx) fuel (cp, idx) = some ((scanned entries)[dirIdx - idx]?) := by
  induction entries generalizing cp idx fuel with
  | nil =>
    apply loop_leave (by omega)
    rw [direntPass]
    dsimp only
    rw [if_neg (by have here : cp = data.length := tiled; omega)]
    rfl
  | cons e entries ih =>
    obtain ⟨inside, here, long, -, rest⟩ := tiled
    obtain ⟨fuel, rfl⟩ : ∃ more, fuel = more + 1 := ⟨fuel - 1, by omega⟩
    have positive : ¬ e.recLen = 0 := by omega
    rw [List.length_cons] at small
    unfold scanned
    by_cases empty : e.nameLen = 0
    · rw [List.takeWhile_cons_of_neg (by simp [empty])]
      apply loop_leave (by omega)
      rw [direntPass]
      dsimp only
      rw [if_pos inside, here, if_pos (.inr empty)]
      rfl
    · rw [List.takeWhile_cons_of_pos (by simp [empty])]
      by_cases reached : idx = dirIdx
      · rw [reached, Nat.sub_self]
        apply loop_leave (by omega)
        rw [direntPass]
        dsimp only
        rw [if_pos inside, here, if_neg (by simp [positive, empty]), if_pos rfl]
        rfl
      · have again : direntPass data dirIdx (cp, idx) = some (.again (cp + e.recLen, idx + 1)) := by
          rw [direntPass]
          dsimp only
          rw [if_pos inside, here, if_neg (by simp [positive, empty]), if_neg reached, wrap_of_lt (by omega)]
        rw [loop_again again, ih rest (by omega) (by omega) (by omega)]
        rw [show dirIdx - idx = dirIdx - (idx + 1) + 1 by omega, List.getElem?_cons_succ]
        rfl

theorem Tiled.count {cp : Nat} (tiled : Tiled data cp entries) : cp + 8 * entries.length ≤ data.length := by
  induction entries generalizing cp with
  | nil => exact Nat.le_of_eq tiled
  | cons e entries ih =>
    obtain ⟨_, _, long, _, rest⟩ := tiled
    have further := ih rest
    rw [List.length_cons]
    omega

theorem scanned_length (entries : List DirEntry) : (scanned entries).length ≤ entries.length :=
  (List.takeWhile_prefix _).length_le

structure Opens (fs : FileSystem) (size : Nat) (disk : Memory) (ino : Nat) (ef : Ext2File) : Prop where
  vol : ef.vol = fs.vol
  inode : ef.inode = inodeAt fs disk ino
  opened : Opened disk size ef.bf

section

variable (listed : Listed fs size disk ino entries) (sound : fs.vol.Sound size)

include listed

theorem Listed.few : entries.length < 2^32 - 1 := by
  have count := listed.tiled.count
  have sized := (inodeAt fs disk ino).sized
  have whole : (contents fs disk ino).length = (inodeAt fs disk ino).iSize := bytes_length _ _ _
  omega

include sound

theorem Listed.ioctl {ef : Ext2File} (opens : Opens fs size disk ino ef) (di : DirentInfo) :
    ∃ ef', Opens fs size disk ino ef' ∧ ext2IoctlDirent ef di =
      match (scanned entries)[di.dirIdx]? with
      | none => some (some di, ef')
      | some e => some (some ⟨wrap (di.dirIdx + 1), e.src⟩, ef') := by
  obtain ⟨bf, read, opened⟩ := ext2_read_is_bytewise sound listed.mapped listed.narrow opens.opened
  have few := listed.few
  have scan := @dirent_scan entries (contents fs disk ino) di.dirIdx 0 0
    ((contents fs disk ino).length + 1) listed.tiled
    (Nat.zero_le _) (by omega) (by omega)
  refine ⟨{ ef with bf }, ⟨opens.vol, opens.inode, opened⟩, ?_⟩
  unfold ext2IoctlDirent
  rw [opens.vol, opens.inode, if_neg (not_not.mpr listed.directory), if_neg (by simp [sound.malloc]), read]
  simp only [ne_eq, not_true_eq_false, if_false]
  unfold contents at scan
  rw [scan, Nat.sub_zero]
  cases (scanned entries)[di.dirIdx]? <;> rfl

theorem Listed.readdir {dp : Dir} (opens : Opens fs size disk ino dp.ef)
    (low : dp.idx ≤ (scanned entries).length) :
    ∃ ef', Opens fs size disk ino ef' ∧ Fs.readdir dp =
      match (scanned entries)[dp.idx]? with
      | none => some (.atEnd, ⟨dp.dName, dp.idx, ef'⟩)
      | some e => some (.dirent e.src, ⟨e.src, dp.idx + 1, ef'⟩) := by
  obtain ⟨ef', opens', call⟩ := listed.ioctl sound opens ⟨dp.idx, dp.dName⟩
  have few := listed.few
  have scans := scanned_length entries
  refine ⟨ef', opens', ?_⟩
  unfold Fs.readdir
  rw [call]
  cases (scanned entries)[dp.idx]? with
  | none => exact if_pos rfl
  | some e =>
    have next : wrap (dp.idx + 1) = dp.idx + 1 := wrap_of_lt (by omega)
    simp only [next]
    exact if_neg (by omega)

theorem Listed.readAll {dp : Dir} {fuel : Nat} (opens : Opens fs size disk ino dp.ef)
    (low : dp.idx ≤ (scanned entries).length) (enough : (scanned entries).length - dp.idx < fuel) :
    ∃ dp', Fs.readAll fuel dp = some (((scanned entries).drop dp.idx).map DirEntry.src, dp') ∧
      dp'.idx = (scanned entries).length ∧ Opens fs size disk ino dp'.ef := by
  induction fuel generalizing dp with
  | zero => omega
  | succ fuel ih =>
    obtain ⟨ef', opens', call⟩ := listed.readdir sound opens low
    unfold Fs.readAll
    rw [call]
    cases here : (scanned entries)[dp.idx]? with
    | none =>
      have past := List.getElem?_eq_none_iff.mp here
      refine ⟨⟨dp.dName, dp.idx, ef'⟩, ?_, Nat.le_antisymm low past, opens'⟩
      rw [List.drop_eq_nil_of_le past]
      rfl
    | some e =>
      obtain ⟨inside, entry⟩ := List.getElem?_eq_some_iff.mp here
      obtain ⟨dp', rest, last, opened⟩ := @ih ⟨e.src, dp.idx + 1, ef'⟩ opens' inside
        (show (scanned entries).length - (dp.idx + 1) < fuel by omega)
      refine ⟨dp', ?_, last, opened⟩
      simp only [rest]
      rw [List.drop_eq_getElem_cons inside, entry]
      rfl

theorem Listed.lookup {c : Name} (b : Buffers) (opened : Opened disk size bf) (nonempty : c ≠ [])
    (plain : slash ∉ c) (short : c.length ≤ ext2NameLen) :
    ∃ bf', Opened disk size bf' ∧ lookupPass fs b ⟨bf, ino, c⟩ =
      match (placed 0 (scanned entries)).find? fun x => x.2.src = c with
      | none => some (.leave (none, bf'))
      | some (cp, e) => descend fs b ⟨bf', ino, []⟩ (contents fs disk ino) cp e := by
  obtain ⟨bf₁, got, opened₁⟩ := getInode_reads sound opened listed.present
  obtain ⟨bf₂, read, opened₂⟩ := ext2_read_is_bytewise sound listed.mapped listed.narrow opened₁
  have scan := @scan_first entries (contents fs disk ino) c 0 ((contents fs disk ino).length + 1)
    listed.tiled (by omega)
  have whole : c.takeWhile (· ≠ slash) = c := List.takeWhile_eq_self_iff.mpr fun x member => by
    simp only [ne_eq, decide_eq_true_eq]
    exact fun same => plain (same ▸ member)
  have rest : c.dropWhile (· ≠ slash) = [] := List.dropWhile_eq_nil_iff.mpr fun x member => by
    simp only [ne_eq, decide_eq_true_eq]
    exact fun same => plain (same ▸ member)
  refine ⟨bf₂, opened₂, ?_⟩
  have inode : decodeInode (inodeBytes fs disk ino) = inodeAt fs disk ino := rfl
  simp only [lookupPass, got, whole, rest, inode]
  rw [if_neg (by omega), if_neg nonempty]
  unfold search
  rw [if_neg (by simp [sound.malloc]), read]
  simp only [ne_eq, not_true_eq_false, if_false]
  unfold contents at scan
  rw [scan]
  cases (placed 0 (scanned entries)).find? fun x => x.2.src = c <;> rfl

end

theorem finds_iff {c : Name} {e : DirEntry} (tiled : Tiled data 0 entries) :
    Finds data c e ↔ c ≠ [] ∧ slash ∉ c ∧ (scanned entries).find? (fun e => e.src = c) = some e := by
  have first : ((placed 0 (scanned entries)).find? fun x => x.2.src = c).map Prod.snd = _ :=
    placed_find (fun e => e.src = c) (scanned entries) 0
  unfold Finds
  rw [scan_first tiled (by omega)]
  constructor
  · rintro ⟨nonempty, plain, _, cp, found⟩
    rw [Option.some.inj found] at first
    exact ⟨nonempty, plain, first.symm⟩
  · rintro ⟨nonempty, plain, found⟩
    obtain ⟨⟨cp, e'⟩, there, rfl⟩ := Option.map_eq_some_iff.mp (first.trans found)
    have member := (List.takeWhile_sublist _).subset (List.mem_of_find?_eq_some found)
    have isNamed := List.find?_some found
    rw [decide_eq_true_eq] at isNamed
    exact ⟨nonempty, plain, isNamed ▸ tiled.short e' member, cp, congrArg some there⟩

theorem Tiled.named {cp : Nat} (tiled : Tiled data cp entries) :
    ∀ e ∈ entries, e.name.length = e.nameLen.toNat := by
  induction entries generalizing cp with
  | nil => exact nofun
  | cons first entries ih =>
    obtain ⟨inside, here, _, room, rest⟩ := tiled
    intro e member
    rcases List.mem_cons.mp member with rfl | later
    · have name := congrArg DirEntry.name here
      have len := congrArg DirEntry.nameLen here
      simp only [entryAt] at name len
      rw [← name, List.length_take, List.length_drop, len]
      omega
    · exact ih rest e later

theorem Listed.named (listed : Listed fs size disk ino entries) {e : DirEntry}
    (member : e ∈ scanned entries) (live : e.live) :
    e.src ≠ [] ∧ slash ∉ e.src := by
  have inside := (List.takeWhile_sublist _).subset member
  have long := List.mem_takeWhile_imp member
  rw [decide_eq_true_eq] at long
  obtain ⟨noZero, noSlash⟩ := listed.plain e inside live
  have whole : e.src = e.name := List.takeWhile_eq_self_iff.mpr fun x here => by
    rw [decide_eq_true_eq]
    exact fun zero => noZero (zero ▸ here)
  rw [whole]
  refine ⟨fun empty => long ?_, noSlash⟩
  have count := listed.tiled.named e inside
  rw [empty] at count
  exact UInt8.toNat_inj.mp count.symm

/-- The listing has the names that can be looked up, if and only if all entries scanned are in use
    and have different names. -/
theorem listing_agrees_iff (listed : Listed fs size disk ino entries) (sound : fs.vol.Sound size)
    {ef : Ext2File} (opens : Opens fs size disk ino ef) (dName : Name) :
    (∃ names dp, readAll (entries.length + 1) ⟨dName, 0, ef⟩ = some (names, dp) ∧ names.Nodup ∧
        names.Sublist (entries.map DirEntry.src) ∧
        ∀ c, c ∈ names ↔ ∃ e, Finds (contents fs disk ino) c e ∧ e.live) ↔
      ((scanned entries).map DirEntry.src).Nodup ∧ ∀ e ∈ scanned entries, e.live := by
  have scans := scanned_length entries
  obtain ⟨dp, call, _⟩ := @Listed.readAll fs size ino disk entries listed sound ⟨dName, 0, ef⟩
    (entries.length + 1) opens
    (Nat.zero_le _) (show (scanned entries).length - 0 < entries.length + 1 by omega)
  constructor
  · rintro ⟨names, dp', call', nodup, _, same⟩
    rw [call] at call'
    cases call'
    refine ⟨nodup, fun e member => ?_⟩
    obtain ⟨found, finds, live⟩ := (same e.src).mp (List.mem_map_of_mem member)
    obtain ⟨_, _, first⟩ := (finds_iff listed.tiled).mp finds
    have sameName := List.find?_some first
    rw [decide_eq_true_eq] at sameName
    have identical : found = e := List.inj_on_of_nodup_map nodup (List.mem_of_find?_eq_some first)
      member sameName
    exact identical ▸ live
  · rintro ⟨nodup, live⟩
    refine ⟨_, dp, call, nodup, ((List.takeWhile_sublist _).map _), fun c => ?_⟩
    constructor
    · intro member
      obtain ⟨e, inside, rfl⟩ := List.mem_map.mp member
      obtain ⟨nonempty, plain⟩ := listed.named inside (live e inside)
      cases first : (scanned entries).find? fun x => x.src = e.src with
      | none =>
        have other := List.find?_eq_none.mp first e inside
        simp at other
      | some found =>
        exact ⟨found, (finds_iff listed.tiled).mpr ⟨nonempty, plain, first⟩,
          live found (List.mem_of_find?_eq_some first)⟩
    · rintro ⟨e, finds, _⟩
      obtain ⟨_, _, first⟩ := (finds_iff listed.tiled).mp finds
      have sameName := List.find?_some first
      rw [decide_eq_true_eq] at sameName
      exact List.mem_map.mpr ⟨e, List.mem_of_find?_eq_some first, sameName⟩

def listedDisk (dot : UInt8) : Memory := fun a => if a = 5249 then 0x41 else rootDisk dot 1 a

def rootDir (dot : UInt8) : Ext2File where
  vol := rootFs.vol
  bf := flatFile (listedDisk dot) 10240
  inode := inodeAt rootFs (listedDisk dot) 2
  oflags := .rdonly
  foffs := 0

theorem rootDir_opens (dot : UInt8) : Opens rootFs 10240 (listedDisk dot) 2 (rootDir dot) :=
  ⟨rfl, rfl, flatFile_opened (listedDisk dot) 10240⟩

set_option maxRecDepth 8000 in
theorem rootDir_listed {dot : UInt8} (which : dot = 2 ∨ dot = 0) :
    Listed rootFs 10240 (listedDisk dot) 2 (rootEntries dot 1) := by
  have size : (inodeAt rootFs (listedDisk dot) 2).iSize = 1024 := by
    rcases which with rfl | rfl <;> decide +kernel
  have block : fileBlock rootFs.vol (listedDisk dot) (inodeAt rootFs (listedDisk dot) 2) 0 = 6 := by
    rcases which with rfl | rfl <;> decide +kernel
  refine ⟨?_, ?_, ?_, .inl (by decide), ?_, ?_⟩
  · rcases which with rfl | rfl <;> decide +kernel
  · rcases which with rfl | rfl <;> exact ⟨by decide +kernel, by decide +kernel⟩
  · rw [size]
    exact root_mapped block
  · have length : (contents rootFs (listedDisk dot) 2).length = 1024 := (bytes_length _ _ _).trans size
    rcases which with rfl | rfl <;>
      exact ⟨by rw [length]; decide, by decide +kernel, by decide, by rw [length]; decide,
        by rw [length]; decide, by decide +kernel, by decide, by rw [length]; decide, length.symm⟩
  · rcases which with rfl | rfl <;> decide

theorem dot_listed : ∃ names dp, readAll 3 ⟨[], 0, rootDir 2⟩ = some (names, dp) ∧ names.Nodup ∧
    names.Sublist ((rootEntries 2 1).map DirEntry.src) ∧
    ∀ c, c ∈ names ↔ ∃ e, Finds (contents rootFs (listedDisk 2) 2) c e ∧ e.live :=
  (@listing_agrees_iff rootFs 10240 2 (listedDisk 2) (rootEntries 2 1) (rootDir_listed (.inl rfl))
    (flatVolume_sound 20 0 (by decide)) (rootDir 2) (rootDir_opens 2) []).mpr (by decide)

/-- The entry of `.` is unused, and its old name is listed. -/
theorem unused_listed : Listed rootFs 10240 (listedDisk 0) 2 (rootEntries 0 1) ∧ rootFs.vol.Sound 10240 ∧
    Opens rootFs 10240 (listedDisk 0) 2 (rootDir 0) ∧
    ∃ dp, readAll 3 ⟨[], 0, rootDir 0⟩ = some ([[46], [97]], dp) ∧
      ∀ e, Finds (contents rootFs (listedDisk 0) 2) [46] e → ¬ e.live := by
  have listed := @rootDir_listed 0 (.inr rfl)
  have sound : rootFs.vol.Sound 10240 := flatVolume_sound 20 0 (by decide)
  obtain ⟨dp, call, _⟩ := @Listed.readAll rootFs 10240 2 (listedDisk 0) (rootEntries 0 1)
    listed sound ⟨[], 0, rootDir 0⟩ 3
    (rootDir_opens 0) (by decide) (by decide)
  refine ⟨listed, sound, rootDir_opens 0, dp, call, ?_⟩
  intro e finds
  obtain ⟨_, _, first⟩ := (finds_iff listed.tiled).mp finds
  have unused : (scanned (rootEntries 0 1)).find? (fun e => e.src = [46]) =
    some ⟨0, 12, 1, 2, [46]⟩ := by decide
  rw [unused] at first
  cases first
  decide

end Embryo.Fs
