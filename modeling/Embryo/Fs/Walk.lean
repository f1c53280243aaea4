import Embryo.Fs.Lookup

namespace Embryo.Fs

open Embryo.Machine Embryo.Block

abbrev Name := List UInt8

abbrev Tree := Nat → Option (List DirEntry)

namespace DirEntry

def live (e : DirEntry) : Bool := e.inode ≠ 0

def isDir (e : DirEntry) : Bool := e.fileType = ext2FtDir

def isReg (e : DirEntry) : Bool := e.fileType = ext2FtRegFile

def named (c : Name) (e : DirEntry) : Bool := e.live ∧ e.src = c

end DirEntry

def components (path : List UInt8) : List Name := (path.splitOn slash).filter (· ≠ [])

def trailing (path : List UInt8) : Bool := path.getLast? = some slash

/-- Walking a path through live entries. All names but the last are those of directories, and a slash
    at the end makes the last one no exception. -/
def walk (tree : Tree) : Nat → List Name → Bool → Option Nat
  | ino, [], _ => some ino
  | ino, c :: cs, ends =>
    match tree ino with
    | none => none
    | some entries =>
      match entries.find? (DirEntry.named c) with
      | none => none
      | some e =>
        if cs = [] ∧ ¬ ends then some e.inode else if e.isDir then walk tree e.inode cs ends else none

/-- The entries follow each other from offset `cp` to the end of the directory, which is not before
    the end of any name. -/
def Tiled (data : List UInt8) : Nat → List DirEntry → Prop
  | cp, [] => cp = data.length
  | cp, e :: entries =>
    cp < data.length ∧ entryAt data cp = e ∧ 8 ≤ e.recLen ∧ cp + 8 + e.nameLen.toNat ≤ data.length ∧
    Tiled data (cp + e.recLen) entries

def placed : Nat → List DirEntry → List (Nat × DirEntry)
  | _, [] => []
  | cp, e :: entries => (cp, e) :: placed (cp + e.recLen) entries

def inodeBytes (fs : FileSystem) (disk : Memory) (ino : Nat) : List UInt8 :=
  bytes disk (fs.inodeOff ino (bytes disk (fs.groupOff ino) sizeofGroupDesc)) sizeofInode

def inodeAt (fs : FileSystem) (disk : Memory) (ino : Nat) : Inode := decodeInode (inodeBytes fs disk ino)

structure Present (fs : FileSystem) (size : Nat) (disk : Memory) (ino : Nat) : Prop where
  group : fs.groupOff ino + sizeofGroupDesc ≤ size
  inode : fs.inodeOff ino (bytes disk (fs.groupOff ino) sizeofGroupDesc) + sizeofInode ≤ size

def contents (fs : FileSystem) (disk : Memory) (ino : Nat) : List UInt8 :=
  bytes (fileByte fs.vol disk (inodeAt fs disk ino)) 0 (inodeAt fs disk ino).iSize

/-- The tree is that of the directories on the disk: their blocks can be read, entries tile them, and
    an entry in use says what kind of file it names. -/
structure WellFormed (fs : FileSystem) (size : Nat) (disk : Memory) (tree : Tree) : Prop where
  root : (tree ext2RootIno).isSome
  present : ∀ d entries, tree d = some entries → Present fs size disk d
  mapped : ∀ d entries, tree d = some entries →
    Mapped fs.vol size disk (inodeAt fs disk d) 0 (inodeAt fs disk d).iSize
  narrow : ∀ d entries, tree d = some entries → Narrow fs.vol 0 (inodeAt fs disk d).iSize
  tiled : ∀ d entries, tree d = some entries → Tiled (contents fs disk d) 0 entries
  target : ∀ d entries, tree d = some entries → ∀ e ∈ entries, e.live → Present fs size disk e.inode
  kind : ∀ d entries, tree d = some entries → ∀ e ∈ entries, e.live → e.isDir → (tree e.inode).isSome

/-- No entry stands in the way of the live one with the name: none that is unused has it, and none
    before it has an empty name. -/
def Clean (c : Name) : List DirEntry → Prop
  | [] => True
  | e :: entries => e.named c ∨
    (e.src ≠ c ∧ (e.nameLen = 0 → entries.find? (DirEntry.named c) = none) ∧
      (e.nameLen ≠ 0 → Clean c entries))

/-- The inode of the file, with the size in front, does not lie over the number in the entry at
    offset `cp`. -/
def Buffers.Spares (b : Buffers) (cp : Nat) : Prop :=
  b.buf + cp + 8 ≤ b.inode ∨ b.inode + sizeofInode ≤ b.buf + cp

instance (b : Buffers) (cp : Nat) : Decidable (b.Spares cp) := inferInstanceAs (Decidable (_ ∨ _))

/-- Every directory on the way is clean, what is followed by a slash is a directory or a regular
    file, and a regular file at the end does not take its number from a block used again. -/
def Passable (b : Buffers) (tree : Tree) : Nat → List Name → Bool → Prop
  | _, [], _ => True
  | ino, c :: cs, ends => ∀ entries ∈ tree ino, Clean c entries ∧
    ∀ p ∈ (placed 0 entries).find? fun p => p.2.named c,
      if cs ≠ [] ∨ ends then (p.2.isDir ∨ p.2.isReg) ∧ (p.2.isDir → Passable b tree p.2.inode cs ends)
      else p.2.isReg → b.Spares p.1

variable {fs : FileSystem} {b : Buffers} {size : Nat} {disk : Memory} {tree : Tree} {bf : BlockFile}

theorem getInode_reads (sound : fs.vol.Sound size) (opened : Opened disk size bf) {ino : Nat}
    (present : Present fs size disk ino) :
    ∃ bf', ext2GetInodeByNumber fs bf ino = some (some (inodeBytes fs disk ino), bf') ∧
      Opened disk size bf' := by
  obtain ⟨bf₁, group, opened₁⟩ := readAt_reads sound opened present.group
  obtain ⟨bf₂, inode, opened₂⟩ := readAt_reads sound opened₁ present.inode
  refine ⟨bf₂, ?_, opened₂⟩
  unfold ext2GetInodeByNumber
  simp only [group]
  rw [if_neg (by simp [sound.malloc]), inode]
  rfl

theorem placed_find (p : DirEntry → Bool) (entries : List DirEntry) (cp : Nat) :
    ((placed cp entries).find? fun x => p x.2).map Prod.snd = entries.find? p := by
  induction entries generalizing cp with
  | nil => rfl
  | cons e entries ih =>
    rw [placed, List.find?_cons, List.find?_cons]
    cases p e with
    | true => rfl
    | false => exact ih (cp + e.recLen)

theorem placed_none {p : DirEntry → Bool} {entries : List DirEntry} (none : entries.find? p = none)
    (cp : Nat) :
    (placed cp entries).find? (fun x => p x.2) = .none :=
  Option.map_eq_none_iff.mp ((placed_find p entries cp).trans none)

theorem Tiled.placed {data : List UInt8} {entries : List DirEntry} {cp : Nat}
    (tiled : Tiled data cp entries) :
    ∀ x ∈ placed cp entries, entryAt data x.1 = x.2 := by
  induction entries generalizing cp with
  | nil => exact nofun
  | cons e entries ih =>
    obtain ⟨_, here, _, _, rest⟩ := tiled
    intro x member
    rcases List.mem_cons.mp member with rfl | later
    · exact here
    · exact ih rest x later

theorem Buffers.Spares.inodeNo {cp : Nat} (spares : b.Spares cp) (data inode : List UInt8) :
    b.inodeNo data inode cp = (entryAt data cp).inode := by
  have kept : ∀ i < 4, b.reused data inode (b.buf + cp + i) = data.getD (cp + i) 0 := by
    intro i few
    unfold Buffers.Spares at spares
    rw [Buffers.reused, if_neg (by omega), if_neg (by omega), Nat.add_assoc, Nat.add_sub_cancel_left]
  simp only [Buffers.inodeNo, entryAt, load32, kept 1 (by decide), kept 2 (by decide), kept 3 (by decide)]
  rw [show b.reused data inode (b.buf + cp) = data.getD cp 0 from kept 0 (by decide)]

theorem Buffers.inodeNo_covered {cp : Nat} (low : b.inode ≤ b.buf + cp)
    (high : b.buf + cp + 4 ≤ b.inode + sizeofInode)
    (data inode : List UInt8) : b.inodeNo data inode cp = load32 (fun a => inode.getD a 0)
    (b.buf + cp - b.inode) := by
  have covered : ∀ i < 4, b.reused data inode (b.buf + cp + i) = inode.getD (b.buf + cp - b.inode + i) 0 := by
    intro i few
    rw [Buffers.reused, if_pos (by omega), Nat.sub_add_comm low]
  simp only [Buffers.inodeNo, load32, covered 1 (by decide), covered 2 (by decide), covered 3 (by decide)]
  rw [show b.reused data inode (b.buf + cp) = inode.getD (b.buf + cp - b.inode) 0 from covered 0 (by decide)]

theorem scan_finds {data : List UInt8} {c : Name} (nonempty : c ≠ []) {entries : List DirEntry} {cp : Nat}
    (tiled : Tiled data cp entries) (clean : Clean c entries) {fuel : Nat}
    (enough : data.length - cp < fuel) :
    loop (scanPass data c) fuel cp = some ((placed cp entries).find? fun x => x.2.named c) := by
  induction entries generalizing cp fuel with
  | nil =>
    apply loop_leave (by omega)
    rw [scanPass, if_neg (by have here : cp = data.length := tiled; omega)]
    rfl
  | cons e entries ih =>
    obtain ⟨inside, here, whole, -, rest⟩ := tiled
    obtain ⟨fuel, rfl⟩ : ∃ more, fuel = more + 1 := ⟨fuel - 1, by omega⟩
    have positive : ¬ e.recLen = 0 := by omega
    rw [placed]
    rcases clean with found | ⟨different, empty, further⟩
    · have isNamed : e.src = c := by
        simp only [DirEntry.named, decide_eq_true_eq] at found
        exact found.2
      have long : ¬ e.nameLen = 0 := by
        intro zero
        have noName : e.name = [] := by
          have name := congrArg DirEntry.name here
          have len := congrArg DirEntry.nameLen here
          simp only [entryAt] at name len
          rw [← name, len, zero]
          exact List.take_zero
        rw [DirEntry.src, noName] at isNamed
        exact nonempty isNamed.symm
      simp only [List.find?_cons, found]
      apply loop_leave (by omega)
      rw [scanPass, if_pos inside]
      dsimp only
      rw [here, if_neg (by simp [positive, long]), if_pos isNamed]
    · have skipped : ¬ e.named c = true := by
        simp only [DirEntry.named, decide_eq_true_eq]
        exact fun both => different both.2
      simp only [List.find?_cons, Bool.eq_false_of_not_eq_true skipped]
      by_cases zero : e.nameLen = 0
      · rw [placed_none (empty zero)]
        apply loop_leave (by omega)
        rw [scanPass, if_pos inside]
        dsimp only
        rw [here, if_pos (.inr zero)]
      · have again : scanPass data c cp = some (.again (cp + e.recLen)) := by
          rw [scanPass, if_pos inside]
          dsimp only
          rw [here, if_neg (by simp [positive, zero]), if_neg different]
        rw [loop_again again]
        exact ih rest (further zero) (by omega)

theorem components_skip (path : List UInt8) : components (path.dropWhile (· = slash)) = components path := by
  induction path with
  | nil => rfl
  | cons x path ih =>
    by_cases isSlash : x = slash
    · rw [List.dropWhile_cons_of_pos (by simp [isSlash]), ih, isSlash]
      unfold components
      have split := List.splitOn_append_cons_self (a := slash) [] path
      rw [List.nil_append, List.splitOn_nil] at split
      rw [split]
      rfl
    · rw [List.dropWhile_cons_of_neg (by simp [isSlash])]

theorem components_first {file rest : List UInt8} (nonempty : file ≠ []) (plain : slash ∉ file) :
    components file = [file] ∧ components (file ++ slash :: rest) = file :: components rest := by
  have single := List.splitOn_eq_singleton plain
  constructor
  · simp [components, single, nonempty]
  · unfold components
    rw [List.splitOn_append_cons_self, single, List.singleton_append,
      List.filter_cons_of_pos (by simp [nonempty])]

theorem slashes_last {slashes : List UInt8} (all : slashes.dropWhile (· = slash) = []) :
    (slash :: slashes).getLast? = some slash := by
  have each : ∀ x ∈ slash :: slashes, x = slash := by
    intro x member
    rcases List.mem_cons.mp member with rfl | member
    · rfl
    · simpa using List.dropWhile_eq_nil_iff.mp all x member
  rw [List.getLast?_eq_getLast_of_ne_nil (List.cons_ne_nil _ _)]
  exact congrArg some (each _ (List.getLast_mem _))

theorem getLast?_dropWhile {path : List UInt8} (left : path.dropWhile (· = slash) ≠ []) :
    (path.dropWhile (· = slash)).getLast? = path.getLast? := by
  have whole := List.takeWhile_append_dropWhile (p := (· = slash)) (l := path)
  conv_rhs => rw [← whole]
  rw [List.getLast?_append_of_ne_nil _ left]

theorem front_dropped (path : List UInt8) : (path.dropWhile (· = slash)).head? ≠ some slash := by
  intro isSlash
  have head := List.head?_dropWhile_not (· = slash) path
  rw [isSlash] at head
  simp at head

structure Taken (path file rest : List UInt8) : Prop where
  nonempty : file ≠ []
  split : components path = file :: components (rest.dropWhile (· = slash))
  last : rest = [] ↔ rest.dropWhile (· = slash) = [] ∧ trailing path = false
  follows : rest ≠ [] → rest.head? = some slash
  ends : rest.dropWhile (· = slash) ≠ [] → trailing (rest.dropWhile (· = slash)) = trailing path
  shorter : (rest.dropWhile (· = slash)).length < path.length

theorem taken {path : List UInt8} (front : path.head? ≠ some slash) (some : path ≠ []) :
    Taken path (path.takeWhile (· ≠ slash)) (path.dropWhile (· ≠ slash)) := by
  have whole := List.takeWhile_append_dropWhile (p := (· ≠ slash)) (l := path)
  have file : path.takeWhile (· ≠ slash) ≠ [] := by
    cases path with
    | nil => exact absurd rfl some
    | cons x path =>
      rw [List.takeWhile_cons_of_pos (by simpa using front)]
      exact List.cons_ne_nil _ _
  have plain : slash ∉ path.takeWhile (· ≠ slash) := fun inside => by
    simpa using List.mem_takeWhile_imp inside
  have positive : 0 < (path.takeWhile (· ≠ slash)).length := List.length_pos_of_ne_nil file
  have length := congrArg List.length whole
  rw [List.length_append] at length
  cases rest : path.dropWhile (· ≠ slash) with
  | nil =>
    rw [rest, List.append_nil] at whole
    have open_ : trailing path = false := by
      rw [trailing, ← whole, decide_eq_false_iff_not]
      intro last
      exact plain (List.mem_of_getLast? last)
    refine ⟨file, ?_, ⟨fun _ => ⟨rfl, open_⟩, fun _ => rfl⟩, fun no => absurd rfl no, fun no =>
      absurd rfl no, ?_⟩
    · conv_lhs => rw [← whole]
      exact (@components_first _ [] file plain).1
    · rw [rest] at length
      simp only [List.dropWhile_nil, List.length_nil]
      omega
  | cons x more =>
    have isSlash : x = slash := by
      have head := List.head?_dropWhile_not (· ≠ slash) path
      rw [rest] at head
      simpa using head
    rw [isSlash] at rest ⊢
    have skip : (slash :: more).dropWhile (· = slash) = more.dropWhile (· = slash) :=
      List.dropWhile_cons_of_pos (by simp)
    rw [rest] at whole length
    have last : path.getLast? = (slash :: more).getLast? := by
      conv_lhs => rw [← whole]
      exact List.getLast?_append_of_ne_nil _ (List.cons_ne_nil _ _)
    refine ⟨file, ?_, ⟨fun no => absurd no (List.cons_ne_nil _ _), ?_⟩, fun _ => rfl, ?_, ?_⟩
    · rw [skip, components_skip]
      conv_lhs => rw [← whole]
      exact (components_first file plain).2
    · rintro ⟨none, ends⟩
      rw [skip] at none
      rw [trailing, last, slashes_last none] at ends
      simp at ends
    · intro left
      rw [skip] at left ⊢
      have kept := getLast?_dropWhile left
      have later : (slash :: more).getLast? = more.getLast? := by
        cases more with
        | nil => exact absurd rfl left
        | cons y more => exact List.getLast?_cons_cons
      rw [trailing, trailing, kept, last, later]
    · rw [skip]
      have := (List.dropWhile_suffix (l := more) (· = slash)).length_le
      simp only [List.length_cons] at length
      omega

theorem components_nil_iff {path : List UInt8} (front : path.head? ≠ some slash) :
    components path = [] ↔ path = [] := by
  constructor
  · intro none
    by_contra some
    rw [(taken front some).split] at none
    cases none
  · rintro rfl
    rfl

theorem Taken.last_iff {path file rest : List UInt8} (took : Taken path file rest) {ends : Bool}
    (closing : trailing path = ends) :
    (components (rest.dropWhile (· = slash)) = [] ∧ ¬ ends = true) ↔ rest = [] := by
  rw [components_nil_iff (front_dropped rest), ← closing, Bool.not_eq_true]
  exact took.last.symm

theorem found_live {c : Name} {e : DirEntry} {entries : List DirEntry}
    (found : entries.find? (DirEntry.named c) = some e) : e ∈ entries ∧ e.live := by
  have isNamed := List.find?_some found
  simp only [DirEntry.named, decide_eq_true_eq] at isNamed
  exact ⟨List.mem_of_find?_eq_some found, isNamed.1⟩

theorem lookupPass_next {s : Lookup} {data : List UInt8} {bf' : BlockFile}
    (got : ext2GetInodeByNumber fs s.bf s.ino = some (some data, bf'))
    (nonempty : s.fnamep.takeWhile (· ≠ slash) ≠ []) :
    lookupPass fs b s =
      if (s.fnamep.takeWhile (· ≠ slash)).length > ext2NameLen then some (.leave (none, bf'))
      else search fs b { s with bf := bf', fnamep := s.fnamep.dropWhile (· ≠ slash) } (decodeInode data)
        (s.fnamep.takeWhile (· ≠ slash)) := by
  simp only [lookupPass, got, nonempty, if_false]

theorem Tiled.short {data : List UInt8} {entries : List DirEntry} {cp : Nat} (tiled : Tiled data cp entries) :
    ∀ e ∈ entries, e.src.length ≤ ext2NameLen := by
  induction entries generalizing cp with
  | nil => exact nofun
  | cons first entries ih =>
    obtain ⟨_, here, _, _, rest⟩ := tiled
    intro e member
    rcases List.mem_cons.mp member with rfl | later
    · have cut : e.name.length ≤ 255 := by
        rw [← here]
        simp only [entryAt, List.length_take]
        have := (data.getD (cp + 6) 0).toNat_lt
        omega
      exact ((List.takeWhile_prefix _).length_le).trans cut
    · exact ih rest e later

theorem long_unknown {data : List UInt8} {entries : List DirEntry} {cp : Nat} {file : Name}
    (tiled : Tiled data cp entries) (long : file.length > ext2NameLen) :
    entries.find? (DirEntry.named file) = none := by
  apply List.find?_eq_none.mpr
  intro e member isNamed
  simp only [DirEntry.named, decide_eq_true_eq] at isNamed
  have short := tiled.short e member
  rw [isNamed.2] at short
  omega

def answer (fs : FileSystem) (disk : Memory) (i : Option Nat) : Option (Nat × Inode) :=
  i.map (fun i => (i, inodeAt fs disk i))

section

variable (wf : WellFormed fs size disk tree) (sound : fs.vol.Sound size)

include wf sound

theorem search_finds {s : Lookup} {entries : List DirEntry} {file : Name} (opened : Opened disk size s.bf)
    (here : tree s.ino = some entries) (nonempty : file ≠ []) (clean : Clean file entries) :
    ∃ bf, Opened disk size bf ∧ search fs b s (inodeAt fs disk s.ino) file =
      match (placed 0 entries).find? fun x => x.2.named file with
      | none => some (.leave (none, bf))
      | some (cp, e) => descend fs b { s with bf } (contents fs disk s.ino) cp e := by
  obtain ⟨bf, read, opened'⟩ := ext2_read_is_bytewise sound (wf.mapped s.ino entries here)
    (wf.narrow s.ino entries here) opened
  refine ⟨bf, opened', ?_⟩
  have scan := @scan_finds _ _ nonempty _ _ (wf.tiled s.ino entries here) clean
    ((contents fs disk s.ino).length + 1) (by omega)
  unfold search
  rw [if_neg (by simp [sound.malloc]), read]
  simp only [ne_eq, not_true_eq_false, if_false]
  unfold contents at scan
  rw [scan]
  cases (placed 0 entries).find? fun x => x.2.named file <;> rfl

theorem lookup_walks (fuel : Nat) (s : Lookup) (ends : Bool) (opened : Opened disk size s.bf)
    (present : Present fs size disk s.ino) (front : s.fnamep.head? ≠ some slash)
    (enough : s.fnamep.length < fuel)
    (isDir : s.fnamep ≠ [] → (tree s.ino).isSome) (closing : s.fnamep ≠ [] → trailing s.fnamep = ends)
    (passable : Passable b tree s.ino (components s.fnamep) ends) :
    ∃ bf, loop (lookupPass fs b) fuel s =
      some (answer fs disk (walk tree s.ino (components s.fnamep) ends), bf) := by
  induction fuel generalizing s with
  | zero => omega
  | succ fuel ih =>
    obtain ⟨bf₁, got, opened₁⟩ := getInode_reads sound opened present
    by_cases none : s.fnamep = []
    · refine ⟨bf₁, loop_leave (by omega) ?_⟩
      simp only [lookupPass, got, none, List.takeWhile_nil, List.length_nil]
      rfl
    have took := taken front none
    have ends_ := closing none
    obtain ⟨entries, here⟩ := Option.isSome_iff_exists.mp (isDir none)
    rw [took.split] at passable ⊢
    obtain ⟨clean, onward⟩ := passable entries here
    let file := s.fnamep.takeWhile (· ≠ slash)
    let rest := s.fnamep.dropWhile (· ≠ slash)
    have pass : lookupPass fs b s = if file.length > ext2NameLen then some (.leave (Option.none, bf₁))
        else search fs b { s with bf := bf₁, fnamep := rest } (inodeAt fs disk s.ino) file :=
      lookupPass_next got took.nonempty
    have walked : walk tree s.ino (file :: components (rest.dropWhile (· = slash))) ends =
        match entries.find? (DirEntry.named file) with
        | Option.none => Option.none
        | some e => if components (rest.dropWhile (· = slash)) = [] ∧ ¬ ends then some e.inode
          else if e.isDir then walk tree e.inode (components (rest.dropWhile (· = slash))) ends
              else Option.none := by
      rw [walk, here]
    by_cases long : file.length > ext2NameLen
    · rw [if_pos long] at pass
      refine ⟨bf₁, (loop_leave (by omega) pass).trans ?_⟩
      rw [walked, long_unknown (wf.tiled s.ino entries here) long]
      rfl
    rw [if_neg long] at pass
    obtain ⟨bf₂, opened₂, searched⟩ := search_finds (b := b) wf sound (s :=
      { s with bf := bf₁, fnamep := rest }) opened₁ here
      took.nonempty clean
    rw [searched] at pass
    rw [walked, ← placed_find (DirEntry.named file) entries 0]
    cases found : (placed 0 entries).find? fun x => x.2.named file with
    | none =>
      rw [show (placed 0 entries).find? (fun x => x.2.named (s.fnamep.takeWhile (· ≠ slash))) =
        _ from found] at pass
      exact ⟨bf₂, loop_leave (by omega) pass⟩
    | some x =>
      rw [show (placed 0 entries).find? (fun x => x.2.named (s.fnamep.takeWhile (· ≠ slash))) =
        _ from found] at pass onward
      obtain ⟨cp, e⟩ := x
      have onward := onward (cp, e) rfl
      have entry := (wf.tiled s.ino entries here).placed _ (List.mem_of_find?_eq_some found)
      have first : entries.find? (DirEntry.named file) = some e := by
        rw [← placed_find (DirEntry.named file) entries 0, found]
        rfl
      obtain ⟨member, live⟩ := found_live first
      have presentE := wf.target s.ino entries here e member live
      have lastIff : (components (rest.dropWhile (· = slash)) = [] ∧ ¬ ends = true) ↔ rest = [] :=
        took.last_iff ends_
      have moreIff : (components (rest.dropWhile (· = slash)) ≠ [] ∨ ends = true) ↔ rest ≠ [] := by
        rw [← not_iff_not, not_or, not_not, not_not]
        exact lastIff
      simp only [descend] at pass
      simp only [Option.map_some]
      dsimp only at onward entry
      by_cases reg : e.fileType = ext2FtRegFile
      · rw [if_pos reg] at pass
        by_cases last : rest = []
        · obtain ⟨bf₃, gotE, _⟩ := getInode_reads sound opened₂ presentE
          rw [if_neg (fun more => moreIff.mp more last)] at onward
          have number := (onward (by simpa [DirEntry.isReg] using reg)).inodeNo
            (contents fs disk s.ino) (inodeBytes fs disk e.inode)
          rw [if_neg (by rw [last]; simp)] at pass
          simp only [gotE, number, entry] at pass
          refine ⟨bf₃, (loop_leave (by omega) pass).trans ?_⟩
          rw [if_pos (lastIff.mpr last)]
          rfl
        · rw [if_pos (took.follows last)] at pass
          refine ⟨bf₂, (loop_leave (by omega) pass).trans ?_⟩
          have notDir : ¬ e.isDir = true := by
            simp only [DirEntry.isDir, decide_eq_true_eq, reg]
            decide
          rw [if_neg (fun both => last (lastIff.mp both)), if_neg notDir]
          rfl
      · rw [if_neg reg] at pass
        rw [loop_again pass]
        have fewer : (rest.dropWhile (· = slash)).length < fuel := Nat.lt_of_lt_of_le took.shorter (by omega)
        by_cases last : rest = []
        · have empty : rest.dropWhile (· = slash) = [] := by rw [last]; rfl
          obtain ⟨bf₃, done⟩ := ih ⟨bf₂, e.inode, rest.dropWhile (· = slash)⟩ opened₂ presentE
            (front_dropped rest) fewer
            (fun some => absurd empty some) (fun some => absurd empty some) (by simp only [empty]; trivial)
          refine ⟨bf₃, ?_⟩
          rw [if_pos (lastIff.mpr last)]
          simp only [empty] at done ⊢
          exact done
        · rw [if_pos (moreIff.mpr last)] at onward
          obtain ⟨kind, next⟩ := onward
          have dir : e.isDir = true := by
            rcases kind with dir | isReg
            · exact dir
            · simp only [DirEntry.isReg, decide_eq_true_eq] at isReg
              exact absurd isReg reg
          obtain ⟨bf₃, done⟩ := ih ⟨bf₂, e.inode, rest.dropWhile (· = slash)⟩ opened₂ presentE
            (front_dropped rest) fewer
            (fun _ => wf.kind s.ino entries here e member live dir) (fun some =>
              (took.ends some).trans ends_) (next dir)
          refine ⟨bf₃, ?_⟩
          rw [if_neg (fun both => last (lastIff.mp both)), if_pos dir]
          exact done

/-- A path is looked up as it is walked, as long as no entry stands in the way. -/
theorem ext2_lookup_is_walk (opened : Opened disk size bf) (path : List UInt8)
    (passable : Passable b tree ext2RootIno (components path) (trailing path)) :
    ∃ bf', ext2LookupInode fs b bf path =
      some (answer fs disk (walk tree ext2RootIno (components path) (trailing path)), bf') := by
  obtain ⟨entries, root⟩ := Option.isSome_iff_exists.mp wf.root
  have shorter := (List.dropWhile_suffix (l := path) (· = slash)).length_le
  have closing : path.dropWhile (· = slash) ≠ [] → trailing (path.dropWhile (· = slash)) = trailing path := by
    intro left
    rw [trailing, trailing, getLast?_dropWhile left]
  rw [← components_skip] at passable ⊢
  exact lookup_walks wf sound (path.length + 1) ⟨bf, ext2RootIno, path.dropWhile (· = slash)⟩
    (trailing path) opened
    (wf.present _ entries root) (front_dropped path) (Nat.lt_succ_of_le shorter) (fun _ => wf.root)
      closing passable

end

/-- A root directory of two entries: one that is in use as `.` or is not in use, and the regular file
    `a` with inode 3. -/
def rootImage (ino nameLen : UInt8) : List (Nat × UInt8) :=
  [(2056, 5), (5253, 4), (5288, 6), (6144, ino), (6148, 12), (6150, nameLen), (6151, 2), (6152, 46),
    (6156, 3), (6160, 244), (6161, 3), (6162, 1), (6163, 1), (6164, 97)]

def rootDisk (ino nameLen : UInt8) : Memory := fun a => ((rootImage ino nameLen).lookup a).getD 0

theorem root_unscaled : 0 ≤ 21 := Nat.zero_le 21

def rootFs : FileSystem := ⟨flatVolume 20 0 root_unscaled, 8, 128, by decide⟩

def rootEntries (ino nameLen : UInt8) : List DirEntry :=
  [⟨ino.toNat, 12, nameLen, 2, [46].take nameLen.toNat⟩, ⟨3, 1012, 1, 1, [97]⟩]

def rootTree (ino nameLen : UInt8) : Tree := fun d => if d = 2 then some (rootEntries ino nameLen) else none

theorem root_mapped {disk : Memory} (block : fileBlock rootFs.vol disk (inodeAt rootFs disk 2) 0 = 6) :
    Mapped rootFs.vol 10240 disk (inodeAt rootFs disk 2) 0 1024 := by
  refine ⟨fun _ => by
    decide, ?_, fun _ beyond => absurd beyond (by decide), fun _ beyond => absurd beyond (by decide), ?_⟩
  · intro n wanted
    have first : n * 1024 < 0 + 1024 := wanted.2
    rw [show n = 0 by omega, block]
    exact ⟨by decide, show 0 * 512 + 6 * 1024 + 1024 ≤ 10240 by decide⟩
  · intro _ i _ beyond
    have beyond : (12 + 256 + i * 256) * 1024 < 0 + 1024 := beyond
    omega

set_option maxRecDepth 8000 in
theorem rootDisk_wellFormed {ino nameLen : UInt8}
    (which : (ino = 2 ∧ nameLen = 1) ∨ (ino = 0 ∧ nameLen = 0)) :
    WellFormed rootFs 10240 (rootDisk ino nameLen) (rootTree ino nameLen) := by
  have only : ∀ d entries, rootTree ino nameLen d = some entries → d = 2 ∧
      entries = rootEntries ino nameLen := by
    intro d entries isDir
    unfold rootTree at isDir
    split at isDir
    · rename_i isRoot
      exact ⟨isRoot, (Option.some.inj isDir).symm⟩
    · cases isDir
  have size : (inodeAt rootFs (rootDisk ino nameLen) 2).iSize = 1024 := by
    rcases which with ⟨rfl, rfl⟩ | ⟨rfl, rfl⟩ <;> decide +kernel
  have block : fileBlock rootFs.vol (rootDisk ino nameLen) (inodeAt rootFs (rootDisk ino nameLen) 2)
      0 = 6 := by
    rcases which with ⟨rfl, rfl⟩ | ⟨rfl, rfl⟩ <;> decide +kernel
  have present : ∀ i, i = 2 ∨ i = 3 → Present rootFs 10240 (rootDisk ino nameLen) i := by
    intro i few
    rcases which with ⟨rfl, rfl⟩ | ⟨rfl, rfl⟩ <;> rcases few with rfl | rfl <;>
      exact ⟨by decide +kernel, by decide +kernel⟩
  refine ⟨rfl, ?_, ?_, ?_, ?_, ?_, ?_⟩
  · intro d entries isDir
    rw [(only d entries isDir).1]
    exact present 2 (.inl rfl)
  · intro d entries isDir
    rw [(only d entries isDir).1, size]
    exact root_mapped block
  · intro d entries isDir
    exact .inl (by decide)
  · intro d entries isDir
    rw [(only d entries isDir).1, (only d entries isDir).2]
    have length : (contents rootFs (rootDisk ino nameLen) 2).length = 1024 := (bytes_length _ _ _).trans size
    rcases which with ⟨rfl, rfl⟩ | ⟨rfl, rfl⟩ <;>
      exact ⟨by rw [length]; decide, by decide +kernel, by decide, by rw [length]; decide,
        by rw [length]; decide, by decide +kernel, by decide, by rw [length]; decide, length.symm⟩
  · intro d entries isDir e member live
    rw [(only d entries isDir).2] at member
    have all : ∀ e ∈ rootEntries ino nameLen, e.live = true → e.inode = 2 ∨ e.inode = 3 := by
      rcases which with ⟨rfl, rfl⟩ | ⟨rfl, rfl⟩ <;> decide
    exact present e.inode (all e member live)
  · intro d entries isDir e member live isDirectory
    rw [(only d entries isDir).2] at member
    have all : ∀ e ∈ rootEntries ino nameLen, e.live = true → e.isDir = true →
        (rootTree ino nameLen e.inode).isSome := by
      rcases which with ⟨rfl, rfl⟩ | ⟨rfl, rfl⟩ <;> decide
    exact all e member live isDirectory

/-- A directory of 1024 bytes as a fresh heap places it: the block for the inode of the file is cut
    from the end of the freed one. -/
def freshBuffers : Buffers := ⟨2048, 2048 + 1024 - sizeofInode⟩

set_option maxRecDepth 8000 in
theorem root_file_found :
    ∃ inode bf, ext2LookupInode rootFs freshBuffers (flatFile (rootDisk 2 1) 10240) [47, 47, 97] =
    some (some (3, inode), bf) := by
  have passable : Passable freshBuffers (rootTree 2 1) ext2RootIno (components [47, 47, 97])
      (trailing [47, 47, 97]) := by
    intro entries isDir
    have same : rootEntries 2 1 = entries := Option.some.inj isDir
    rw [← same]
    refine ⟨.inr ⟨by decide, by decide, fun _ => .inl (by decide)⟩, ?_⟩
    intro p found
    rw [if_neg (by decide)]
    intro _
    have second : (placed 0 (rootEntries 2 1)).find? (fun p => p.2.named [97]) =
      some (12, ⟨3, 1012, 1, 1, [97]⟩) := by decide
    have first : p = (12, ⟨3, 1012, 1, 1, [97]⟩) := Option.some.inj (found.symm.trans second)
    rw [first]
    decide
  obtain ⟨bf, call⟩ := ext2_lookup_is_walk (rootDisk_wellFormed (.inl ⟨rfl, rfl⟩))
    (flatVolume_sound 20 0 (by decide))
    (flatFile_opened (rootDisk 2 1) 10240) [47, 47, 97] passable
  exact ⟨_, bf, call⟩

set_option maxRecDepth 8000 in
/-- An unused entry without a name ends the search: the file `a` behind it is not found. -/
theorem root_file_missed : WellFormed rootFs 10240 (rootDisk 0 0) (rootTree 0 0) ∧ rootFs.vol.Sound 10240 ∧
    Opened (rootDisk 0 0) 10240 (flatFile (rootDisk 0 0) 10240) ∧
    walk (rootTree 0 0) ext2RootIno (components [97]) (trailing [97]) = some 3 ∧
    ∃ bf, ext2LookupInode rootFs freshBuffers (flatFile (rootDisk 0 0) 10240) [97] = some (none, bf) :=
  ⟨rootDisk_wellFormed (.inr ⟨rfl, rfl⟩), flatVolume_sound 20 0 (by decide),
    flatFile_opened _ _, by decide, _, rfl⟩

end Embryo.Fs
