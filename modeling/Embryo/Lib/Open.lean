import Embryo.Lib.Strpat

namespace Embryo.Lib

open Embryo.Machine

def openMax : Nat := 64

/-- `valid` and `fs` of an entry, the latter as a place in the list of file systems. -/
structure Entry where
  valid : Bool
  fs : Option Nat
deriving DecidableEq

abbrev Table := Nat → Entry

def Table.blank : Table := fun _ => ⟨false, none⟩

structure FileSystem where
  name : Str
  type : Nat
  hasOpen : Bool
  hasClose : Bool

/-- The calls a file system's `open` makes before it answers. It closes what it has opened when it fails. -/
inductive Script
  | succeed
  | fail
  | closeLast (next : Script)
  | opens (fname : Str) (inner : Nat → Script) (opened refused : Script)

/-- The scan of `open`, which reads beyond the table when no entry is free. -/
def scan (t : Table) : Option Nat := (List.range openMax).find? (fun i => !(t i).valid)

/-- `close`, with what the file system's own `close` does. There is no result where it reads beside the table
    or through a null pointer. -/
def close (fss : List FileSystem) (own : Table → Option (Int × Table)) (t : Table) (fd : Int) :
    Option (Int × Table) :=
  if fd > openMax then some (-1, t)
  else if fd < 0 ∨ openMax ≤ fd then none
  else if (t fd.toNat).valid then
    match (t fd.toNat).fs.bind (fss[·]?) with
    | none => none
    | some fs =>
      match if fs.hasClose then own t else some (0, t) with
      | none => none
      | some (ret, t) => if ret ≠ 0 then some (ret, t) else some (0, Function.update t fd.toNat ⟨false, none⟩)
  else some (0, t)

def closeAll (fss : List FileSystem) : List Int → Table → Option Table
  | [], t => some t
  | fd :: rest, t =>
    match close fss (fun t => some (0, t)) t fd with
    | none => none
    | some (_, t) => closeAll fss rest t

def route (fname : Str) : Option (Str × Nat) :=
  if [47, 100, 101, 118, 47].isPrefixOf fname then some (fname.drop 5, 0)
  else if [116, 102, 116, 112, 58, 47, 47].isPrefixOf fname then some ([110, 101, 116, 105, 111], 3)
  else none

theorem tftp_name (fname : Str) : strpat fname [116, 102, 116, 112, 58, 47, 47, 42] =
    some ([116, 102, 116, 112, 58, 47, 47].isPrefixOf fname) :=
  @strpat_leading fname [116, 102, 116, 112, 58, 47, 47] (by decide) (by decide) (by decide) (by decide)

/-- `__open`, with the file system chosen and the descriptors that stay open for it. -/
def openIn (run : Nat → Table → Option (Bool × Table × List Nat)) (dname : Str) (fstype : Nat) :
    List FileSystem → Nat → Table → Option (Option Nat × Table × List Nat)
  | [], _, t => some (none, t, [])
  | fs :: rest, i, t =>
    if fs.name.isPrefixOf dname then
      if fs.hasOpen then
        match run i t with
        | none => none
        | some (true, t, kept) => some (some i, t, kept)
        | some (false, t, kept) => some (none, t, kept)
      else some (some i, t, [])
    else if fstype ≠ 0 ∧ fstype = fs.type then
      if fs.hasOpen then
        match run i t with
        | none => none
        | some (true, t, kept) => some (some i, t, kept)
        | some (false, t, _) => openIn run dname fstype rest (i + 1) t
      else openIn run dname fstype rest (i + 1) t
    else openIn run dname fstype rest (i + 1) t

def openFile (fss : List FileSystem) (run : Nat → Table → Option (Bool × Table × List Nat))
    (fname : Str) (t : Table) :
    Option (Int × Table × List Nat) :=
  match scan t with
  | none => none
  | some fd =>
    if fd > openMax then some (-1, t, [])
    else
      let t := Function.update t fd { t fd with valid := true }
      match route fname with
      | none => some (-1, Function.update t fd { t fd with valid := false }, [])
      | some (dname, fstype) =>
        match openIn run dname fstype fss 0 t with
        | none => none
        | some (none, t, _) => some (-1, Function.update t fd { t fd with valid := false }, [])
        | some (some i, t, kept) => some (fd, Function.update t fd ⟨true, some i⟩, kept ++ [fd])

def runScript (fss : List FileSystem) : Script → Table → List (List Nat) → Option (Bool × Table × List Nat)
  | .succeed, t, mine => some (true, t, mine.flatten)
  | .fail, t, mine => (closeAll fss (mine.flatten.map Nat.cast) t).map fun t => (false, t, [])
  | .closeLast next, t, mine =>
    match closeAll fss ((mine.headD []).map Nat.cast) t with
    | none => none
    | some t => runScript fss next t mine.tail
  | .opens fname inner opened refused, t, mine =>
    match openFile fss (fun i t => runScript fss (inner i) t []) fname t with
    | none => none
    | some (ret, t, taken) =>
      if ret = -1 then runScript fss refused t mine else runScript fss opened t (taken :: mine)

inductive Op
  | open (fname : Str) (inner : Nat → Script)
  | close (fd : Int) (inner : List Int) (ret : Int)

def step (fss : List FileSystem) (t : Table) : Op → Option (Int × Table)
  | .open fname inner =>
    (openFile fss (fun i t => runScript fss (inner i) t []) fname t).map fun out => (out.1, out.2.1)
  | .close fd inner ret => close fss (fun t => (closeAll fss inner t).map (ret, ·)) t fd

def Along (fss : List FileSystem) (holds : Table → Op → Prop) : Table → List Op → Prop
  | _, [] => True
  | t, op :: rest => holds t op ∧ ∀ ret t', step fss t op = some (ret, t') → Along fss holds t' rest

/-- `open` hands out an entry nobody holds or leaves the table as it was, and no call reads beside
    the table. -/
def Answered (fss : List FileSystem) (t : Table) (op : Op) : Prop :=
  match op with
  | .open fname inner => ∃ ret t', step fss t (.open fname inner) = some (ret, t') ∧
      ((∃ fd : Nat, ret = fd ∧ fd < openMax ∧ (t fd).valid = false ∧ (t' fd).valid = true ∧
          ∀ i, (t i).valid → t' i = t i) ∨ (ret = -1 ∧ t' = t))
  | .close fd inner ret => step fss t (.close fd inner ret) ≠ none

/-- Whether a call that takes descriptors succeeds, how many stay open, and how many are open at once. -/
structure Usage where
  opened : Bool
  kept : Nat
  peak : Nat

def useIn (use : Nat → Usage) (dname : Str) (fstype : Nat) : List FileSystem → Nat → Usage
  | [], _ => ⟨false, 0, 0⟩
  | fs :: rest, i =>
    let later := useIn use dname fstype rest (i + 1)
    if fs.name.isPrefixOf dname then if fs.hasOpen then use i else ⟨true, 0, 0⟩
    else if fstype ≠ 0 ∧ fstype = fs.type ∧ fs.hasOpen then
      if (use i).opened then use i else { later with peak := max (use i).peak later.peak }
    else later

def useOpen (fss : List FileSystem) (use : Nat → Usage) (fname : Str) : Usage :=
  match route fname with
  | none => ⟨false, 0, 1⟩
  | some (dname, fstype) =>
    let used := useIn use dname fstype fss 0
    ⟨used.opened, if used.opened then used.kept + 1 else 0, used.peak + 1⟩

def useScript (fss : List FileSystem) : Script → List Nat → Usage
  | .succeed, mine => ⟨true, mine.sum, mine.sum⟩
  | .fail, mine => ⟨false, 0, mine.sum⟩
  | .closeLast next, mine =>
    let later := useScript fss next mine.tail
    { later with peak := max mine.sum later.peak }
  | .opens fname inner opened refused, mine =>
    let used := useOpen fss (fun i => useScript fss (inner i) []) fname
    let later := if used.opened then useScript fss opened (used.kept :: mine) else useScript fss refused mine
    { later with peak := max (mine.sum + used.peak) later.peak }

def free (t : Table) : Nat := ((Finset.range openMax).filter (fun i => (t i).valid = false)).card

/-- There is room for all the descriptors that are open at once, and `close` is given no negative number and
    not the size of the table. -/
def Safe (fss : List FileSystem) (t : Table) (op : Op) : Prop :=
  match op with
  | .open fname inner => (useOpen fss (fun i => useScript fss (inner i) []) fname).peak ≤ free t
  | .close fd inner _ => (0 ≤ fd ∧ fd ≠ openMax) ∧
      (fd < openMax → ∀ fs, (t fd.toNat).fs.bind (fss[·]?) = some fs → fs.hasClose →
        ∀ j ∈ inner, 0 ≤ j ∧ j ≠ openMax)

structure Over (fss : List FileSystem) (t₀ t : Table) (l : List Nat) : Prop where
  nodup : l.Nodup
  taken : ∀ i ∈ l, i < openMax ∧ t₀ i = ⟨false, none⟩ ∧ ∃ f < fss.length, t i = ⟨true, some f⟩
  rest : ∀ i, i ∉ l → t i = t₀ i

def Idle (t : Table) : Prop := ∀ i < openMax, (t i).valid = false → t i = ⟨false, none⟩

section

variable {fss : List FileSystem} {t₀ t t' : Table} {l m : List Nat} {i fd : Nat}

theorem Over.refl (fss : List FileSystem) (t : Table) : Over fss t t [] :=
  ⟨List.nodup_nil, nofun, fun _ _ => rfl⟩

theorem Over.eq (upon : Over fss t₀ t []) : t = t₀ := funext fun i => upon.rest i List.not_mem_nil

theorem Over.trans (first : Over fss t₀ t l) (second : Over fss t t' m) : Over fss t₀ t' (m ++ l) := by
  have apart : ∀ i ∈ m, i ∉ l := by
    intro i new old
    obtain ⟨_, _, f, _, held⟩ := first.taken i old
    have free := (second.taken i new).2.1
    rw [held] at free
    cases free
  constructor
  · exact second.nodup.append first.nodup apart
  · intro i held
    rcases List.mem_append.mp held with new | old
    · obtain ⟨inside, free, now⟩ := second.taken i new
      exact ⟨inside, (first.rest i (apart i new)).symm.trans free, now⟩
    · obtain ⟨inside, free, f, known, now⟩ := first.taken i old
      exact ⟨inside, free, f, known, (second.rest i fun new => apart i new old).trans now⟩
  · intro i other
    rw [List.mem_append, not_or] at other
    exact (second.rest i other.1).trans (first.rest i other.2)

theorem Over.idle (upon : Over fss t₀ t l) (idle : Idle t₀) : Idle t := by
  intro i inside closed
  by_cases held : i ∈ l
  · obtain ⟨_, _, f, _, now⟩ := upon.taken i held
    rw [now] at closed
    cases closed
  · rw [upon.rest i held] at closed ⊢
    exact idle i inside closed

theorem Over.free_add (upon : Over fss t₀ t l) : free t + l.length = free t₀ := by
  have split : (Finset.range openMax).filter (fun i => (t₀ i).valid = false) =
      (Finset.range openMax).filter (fun i => (t i).valid = false) ∪ l.toFinset := by
    ext i
    simp only [Finset.mem_filter, Finset.mem_range, Finset.mem_union, List.mem_toFinset]
    by_cases held : i ∈ l
    · obtain ⟨inside, before, _⟩ := upon.taken i held
      simp [held, inside, before]
    · simp [held, upon.rest i held]
  have apart : Disjoint ((Finset.range openMax).filter (fun i => (t i).valid = false)) l.toFinset := by
    rw [Finset.disjoint_left]
    intro i closed held
    obtain ⟨_, _, f, _, now⟩ := upon.taken i (List.mem_toFinset.mp held)
    have closed := (Finset.mem_filter.mp closed).2
    rw [now] at closed
    cases closed
  rw [free, free, split, Finset.card_union_of_disjoint apart, List.toFinset_card_of_nodup upon.nodup]

theorem close_taken {own : Table → Option (Int × Table)} (granted : own t = some (0, t))
    (inside : i < openMax) {f : Nat} (known : f < fss.length) (held : t i = ⟨true, some f⟩) :
    close fss own t i = some (0, Function.update t i ⟨false, none⟩) := by
  have found : (some f).bind (fss[·]?) = some fss[f] := List.getElem?_eq_getElem known
  rw [close, if_neg (by omega), if_neg (by omega), Int.toNat_natCast, held]
  simp only [found, granted, ite_self, if_true]
  rfl

theorem Over.close_one (upon : Over fss t₀ t (i :: l)) :
    Over fss t₀ (Function.update t i ⟨false, none⟩) l := by
  obtain ⟨fresh, nodup⟩ := List.nodup_cons.mp upon.nodup
  apply Over.mk nodup
  · intro j held
    have other : j ≠ i := fun same => fresh (same ▸ held)
    rw [Function.update_of_ne other]
    exact upon.taken j (List.mem_cons_of_mem _ held)
  · intro j away
    by_cases same : j = i
    · rw [same, Function.update_self]
      exact (upon.taken i List.mem_cons_self).2.1.symm
    · rw [Function.update_of_ne same]
      exact upon.rest j (fun held => (List.mem_cons.mp held).elim same away)

theorem Over.close_all (upon : Over fss t₀ t (l ++ m)) :
    ∃ t', closeAll fss (l.map Nat.cast) t = some t' ∧ Over fss t₀ t' m := by
  induction l generalizing t with
  | nil => exact ⟨t, rfl, upon⟩
  | cons i rest ih =>
    obtain ⟨inside, _, f, known, now⟩ := upon.taken i List.mem_cons_self
    obtain ⟨t', closed, left⟩ := ih upon.close_one
    rw [List.map_cons, closeAll, close_taken rfl inside known now]
    exact ⟨t', closed, left⟩

theorem scan_none (full : free t = 0) : scan t = none := by
  apply List.find?_eq_none.mpr
  intro i inside closed
  have held : i ∈ (Finset.range openMax).filter (fun i => (t i).valid = false) := by
    rw [Finset.mem_filter, Finset.mem_range]
    exact ⟨List.mem_range.mp inside, by simpa using closed⟩
  rw [free, Finset.card_eq_zero] at full
  rw [full] at held
  cases held

theorem scan_some (room : 0 < free t) : ∃ fd < openMax, scan t = some fd ∧ (t fd).valid = false := by
  obtain ⟨i, held⟩ := Finset.card_pos.mp room
  obtain ⟨inside, closed⟩ := Finset.mem_filter.mp held
  rcases found : scan t with _ | fd
  · have all := List.find?_eq_none.mp found i (List.mem_range.mpr (Finset.mem_range.mp inside))
    rw [closed] at all
    exact absurd rfl all
  · have member := List.mem_range.mp (List.mem_of_find?_eq_some found)
    have closed := List.find?_some found
    exact ⟨fd, member, rfl, by simpa using closed⟩

end

/-- A call that takes descriptors does as its usage says when there is room for it, and else reads
    beyond the table. -/
def Fits {α : Type} (fss : List FileSystem) (t₀ : Table) (u : Usage) (answer : α → List Nat → Prop)
    (out : Option (α × Table × List Nat)) : Prop :=
  (u.peak ≤ free t₀ → ∃ a t kept, out = some (a, t, kept) ∧ answer a kept ∧ Over fss t₀ t kept ∧
    kept.length = u.kept ∧
      (u.opened = false → kept = [])) ∧
    (free t₀ < u.peak → out = none)

section

variable {α β : Type} {fss : List FileSystem} {t₀ t : Table} {u : Usage}

theorem openIn_fits {run : Nat → Table → Option (Bool × Table × List Nat)} {use : Nat → Usage}
    (runs : ∀ i, Fits fss t (use i) (fun ok _ => ok = (use i).opened) (run i t)) (dname : Str)
    (fstype : Nat) (rest : List FileSystem) (i : Nat) (place : i + rest.length = fss.length) :
    Fits fss t (useIn use dname fstype rest i)
      (fun o _ => o.isSome = (useIn use dname fstype rest i).opened ∧ ∀ f, o = some f → f < fss.length)
      (openIn run dname fstype rest i t) := by
  induction rest generalizing i with
  | nil => exact ⟨fun _ => ⟨none, t, [], rfl, ⟨rfl, nofun⟩, Over.refl fss t, rfl, fun _ => rfl⟩, nofun⟩
  | cons fs rest ih =>
    rw [List.length_cons] at place
    have later := ih (i + 1) (by omega)
    have inside : ∀ f, some i = some f → f < fss.length := by
      rintro f ⟨⟩
      omega
    obtain ⟨granted, faults⟩ := runs i
    unfold openIn useIn
    by_cases named : fs.name.isPrefixOf dname = true
    · simp only [if_pos named]
      by_cases own : fs.hasOpen = true
      · simp only [if_pos own]
        constructor
        · intro room
          obtain ⟨ok, t', kept, answer, rfl, upon, length, none⟩ := granted room
          rw [answer]
          cases opened : (use i).opened with
          | true => exact ⟨some i, t', kept, rfl, ⟨rfl, inside⟩, upon, length, nofun⟩
          | false => exact ⟨.none, t', kept, rfl, ⟨rfl, nofun⟩, upon, length, fun _ => none opened⟩
        · intro few
          rw [faults few]
      · simp only [if_neg own]
        exact ⟨fun _ => ⟨some i, t, [], rfl, ⟨rfl, inside⟩, Over.refl fss t, rfl, nofun⟩, nofun⟩
    · simp only [if_neg named]
      by_cases typed : fstype ≠ 0 ∧ fstype = fs.type
      · by_cases own : fs.hasOpen = true
        · simp only [typed.1, typed.2.symm, ne_eq, not_false_eq_true, own, and_self, if_true]
          cases opened : (use i).opened with
          | true =>
            simp only [if_true]
            constructor
            · intro room
              obtain ⟨ok, t', kept, answer, rfl, upon, length, none⟩ := granted room
              rw [answer, opened]
              exact ⟨some i, t', kept, rfl, ⟨rfl, inside⟩, upon, length, nofun⟩
            · intro few
              rw [faults few]
          | false =>
            simp only [Bool.false_eq_true, if_false]
            constructor
            · intro room
              obtain ⟨ok, t', kept, answer, rfl, upon, length, none⟩ :=
                granted (le_trans (le_max_left _ _) room)
              rw [none opened] at upon
              rw [answer, opened, upon.eq]
              exact later.1 (le_trans (le_max_right _ _) room)
            · intro few
              by_cases room : (use i).peak ≤ free t
              · obtain ⟨ok, t', kept, answer, rfl, upon, length, none⟩ := granted room
                rw [none opened] at upon
                rw [answer, opened, upon.eq]
                exact later.2 ((lt_max_iff.mp few).resolve_left (Nat.not_lt.mpr room))
              · rw [faults (Nat.not_le.mp room)]
        · simp only [if_pos typed, if_neg own]
          have skip : ¬ (fstype ≠ 0 ∧ fstype = fs.type ∧ fs.hasOpen = true) := fun both => own both.2.2
          rw [if_neg skip]
          exact later
      · have skip : ¬ (fstype ≠ 0 ∧ fstype = fs.type ∧ fs.hasOpen = true) :=
          fun both => typed ⟨both.1, both.2.1⟩
        simp only [if_neg typed]
        rw [if_neg skip]
        exact later

theorem reserve_free {fd : Nat} (inside : fd < openMax) (closed : (t fd).valid = false) :
    free (Function.update t fd { t fd with valid := true }) + 1 = free t := by
  have split : (Finset.range openMax).filter (fun i => (t i).valid = false) =
      insert fd ((Finset.range openMax).filter
        (fun i => (Function.update t fd { t fd with valid := true } i).valid = false)) := by
    ext i
    simp only [Finset.mem_filter, Finset.mem_range, Finset.mem_insert]
    by_cases same : i = fd
    · simp [same, inside, closed]
    · simp [same]
  rw [free, free, split, Finset.card_insert_of_notMem]
  simp

theorem reserve_idle {fd : Nat} (idle : Idle t) :
    Idle (Function.update t fd { t fd with valid := true }) := by
  intro i inside closed
  by_cases same : i = fd
  · rw [same, Function.update_self] at closed
    cases closed
  · rw [Function.update_of_ne same] at closed ⊢
    exact idle i inside closed

theorem Over.finish {fd f : Nat} {kept : List Nat} (inside : fd < openMax) (before : t₀ fd = ⟨false, none⟩)
    (known : f < fss.length) (upon : Over fss (Function.update t₀ fd { t₀ fd with valid := true }) t kept) :
    Over fss t₀ (Function.update t fd ⟨true, some f⟩) (kept ++ [fd]) := by
  have fresh : fd ∉ kept := by
    intro held
    have free := (upon.taken fd held).2.1
    rw [Function.update_self] at free
    cases free
  have other : ∀ i ∈ kept, i ≠ fd := fun i held same => fresh (same ▸ held)
  constructor
  · rw [List.nodup_append]
    apply And.intro upon.nodup
    apply And.intro (List.nodup_singleton fd)
    intro i held j last
    rw [List.mem_singleton.mp last]
    exact other i held
  · intro i held
    rcases List.mem_append.mp held with held | last
    · have taken := upon.taken i held
      rw [Function.update_of_ne (other i held)] at taken ⊢
      exact taken
    · rw [List.mem_singleton.mp last, Function.update_self]
      exact ⟨inside, before, f, known, rfl⟩
  · intro i away
    rw [List.mem_append, List.mem_singleton, not_or] at away
    rw [Function.update_of_ne away.2, upon.rest i away.1, Function.update_of_ne away.2]

theorem openFile_fits {run : Nat → Table → Option (Bool × Table × List Nat)} {use : Nat → Usage}
    (runs : ∀ i t, Idle t → Fits fss t (use i) (fun ok _ => ok = (use i).opened) (run i t))
    (fname : Str) (idle : Idle t) :
    Fits fss t (useOpen fss use fname)
      (fun (ret : Int) kept => if (useOpen fss use fname).opened then
        ∃ fd ∈ kept, ret = (fd : Nat) ∧ (t fd).valid = false
        else ret = -1)
      (openFile fss run fname t) := by
  unfold openFile
  rcases Nat.eq_zero_or_pos (free t) with full | room
  · rw [scan_none full]
    apply And.intro _ (fun _ => rfl)
    intro enough
    exfalso
    unfold useOpen at enough
    split at enough
    · simp only at enough
      omega
    · simp only at enough
      omega
  · obtain ⟨fd, inside, found, closed⟩ := scan_some room
    have before := idle fd inside closed
    have within : ¬ fd > openMax := by omega
    have count := reserve_free inside closed
    have reserved := @reserve_idle _ fd idle
    simp only [found, if_neg within]
    generalize entry : Function.update t fd { t fd with valid := true } = t₁ at count reserved ⊢
    have back : ∀ t₂, t₂ = t₁ → Over fss t (Function.update t₂ fd { t₂ fd with valid := false }) [] := by
      rintro t₂ rfl
      have same : Function.update t₂ fd { t₂ fd with valid := false } = t := by
        rw [← entry, Function.update_self, Function.update_idem, before]
        exact (congrArg (Function.update t fd) before.symm).trans (Function.update_eq_self fd t)
      rw [same]
      exact Over.refl fss t
    unfold useOpen
    rcases route fname with _ | ⟨dname, fstype⟩
    · simp only [Bool.false_eq_true, if_false]
      constructor
      · intro _
        exact ⟨-1, _, [], rfl, rfl, back t₁ rfl, rfl, fun _ => rfl⟩
      · intro few
        simp only at few
        omega
    · simp only
      obtain ⟨granted, faults⟩ := openIn_fits (fun i => runs i t₁ reserved) dname fstype fss 0 (by omega)
      by_cases enough : (useIn use dname fstype fss 0).peak ≤ free t₁
      · obtain ⟨o, t₂, kept, answer, ⟨same, known⟩, upon, length, none⟩ := granted enough
        rw [answer]
        apply And.intro
        · intro _
          cases o with
          | none =>
            have refused : (useIn use dname fstype fss 0).opened = false := same.symm
            rw [none refused] at upon
            simp only [refused, Bool.false_eq_true, if_false]
            exact ⟨-1, _, [], rfl, rfl, back t₂ upon.eq, rfl, fun _ => rfl⟩
          | some f =>
            have opened : (useIn use dname fstype fss 0).opened = true := same.symm
            rw [← entry] at upon
            simp only [opened, if_true]
            have more : (kept ++ [fd]).length = (useIn use dname fstype fss 0).kept + 1 := by
              rw [List.length_append, List.length_singleton, length]
            have finished := upon.finish inside before (known f rfl)
            exact ⟨fd, _, kept ++ [fd], rfl, ⟨fd, List.mem_append_right _ List.mem_cons_self, rfl,
              closed⟩, finished, more, nofun⟩
        · intro few
          simp only at few
          omega
      · rw [faults (Nat.not_le.mp enough)]
        apply And.intro _ (fun _ => rfl)
        intro enough'
        simp only at enough'
        omega

end

theorem runScript_fits (fss : List FileSystem) (s : Script) {t₀ t : Table} {mine : List (List Nat)}
    (idle : Idle t₀) (upon : Over fss t₀ t mine.flatten) :
    Fits fss t₀ (useScript fss s (mine.map List.length))
    (fun ok _ => ok = (useScript fss s (mine.map List.length)).opened)
      (runScript fss s t mine) := by
  induction s generalizing t₀ t mine with
  | succeed =>
    have count := upon.free_add
    rw [List.length_flatten] at count
    constructor
    · intro _
      exact ⟨true, t, mine.flatten, rfl, rfl, upon, List.length_flatten, nofun⟩
    · intro few
      simp only [useScript] at few
      omega
  | fail =>
    have count := upon.free_add
    rw [List.length_flatten] at count
    rw [← List.append_nil mine.flatten] at upon
    obtain ⟨t', closed, left⟩ := upon.close_all
    rw [runScript, closed]
    constructor
    · intro _
      exact ⟨false, t', [], rfl, rfl, left, rfl, fun _ => rfl⟩
    · intro few
      simp only [useScript] at few
      omega
  | closeLast next ih =>
    have count := upon.free_add
    rw [List.length_flatten] at count
    have split : mine.flatten = mine.headD [] ++ mine.tail.flatten := by cases mine <;> rfl
    rw [split] at upon
    obtain ⟨t', closed, left⟩ := upon.close_all
    obtain ⟨granted, faults⟩ := ih idle left
    rw [runScript, closed]
    simp only [useScript, ← List.map_tail]
    constructor
    · intro room
      exact granted (le_trans (le_max_right _ _) room)
    · intro few
      apply faults
      apply (lt_max_iff.mp few).resolve_left
      omega
  | opens fname inner opened refused ihInner ihOpened ihRefused =>
    have count := upon.free_add
    rw [List.length_flatten] at count
    have runs : ∀ i t, Idle t → Fits fss t (useScript fss (inner i) [])
      (fun ok _ => ok = (useScript fss (inner i) []).opened)
        (runScript fss (inner i) t []) :=
      fun i t idle => @ihInner i t t [] idle (Over.refl fss t)
    obtain ⟨granted, faults⟩ := openFile_fits runs fname (upon.idle idle)
    rw [runScript]
    simp only [useScript]
    generalize useOpen fss (fun i => useScript fss (inner i) []) fname = used at granted faults ⊢
    by_cases enough : used.peak ≤ free t
    · obtain ⟨ret, t', taken, answer, meaning, further, length, none⟩ := granted enough
      rw [answer]
      simp only
      cases result : used.opened with
      | true =>
        rw [result, if_pos rfl] at meaning
        obtain ⟨fd, _, same, _⟩ := meaning
        have good : ret ≠ -1 := by omega
        have both : Over fss t₀ t' (taken :: mine).flatten := upon.trans further
        obtain ⟨onward, stuck⟩ := ihOpened idle both
        rw [List.map_cons, length] at onward stuck
        simp only [if_neg good, if_true]
        constructor
        · intro room
          exact onward (le_trans (le_max_right _ _) room)
        · intro few
          apply stuck
          apply (lt_max_iff.mp few).resolve_left
          omega
      | false =>
        rw [result, if_neg Bool.false_ne_true] at meaning
        rw [none result] at further
        obtain ⟨onward, stuck⟩ := ihRefused idle (further.eq ▸ upon)
        simp only [if_pos meaning, Bool.false_eq_true, if_false]
        constructor
        · intro room
          exact onward (le_trans (le_max_right _ _) room)
        · intro few
          apply stuck
          apply (lt_max_iff.mp few).resolve_left
          omega
    · rw [faults (Nat.not_le.mp enough)]
      apply And.intro _ (fun _ => rfl)
      intro room
      have both := (max_le_iff.mp room).1
      omega

def Sound (fss : List FileSystem) (t : Table) : Prop :=
  ∀ i < openMax, t i = ⟨false, none⟩ ∨ ∃ f < fss.length, t i = ⟨true, some f⟩

section

variable {fss : List FileSystem} {t t' : Table} {l : List Nat}

theorem Sound.idle (sound : Sound fss t) : Idle t := by
  intro i inside closed
  rcases sound i inside with free | ⟨f, _, held⟩
  · exact free
  · rw [held] at closed
    cases closed

theorem Sound.take (sound : Sound fss t) (upon : Over fss t t' l) : Sound fss t' := by
  intro i inside
  by_cases held : i ∈ l
  · exact Or.inr (upon.taken i held).2.2
  · rw [upon.rest i held]
    exact sound i inside

theorem Sound.clear (sound : Sound fss t) (fd : Nat) : Sound fss (Function.update t fd ⟨false, none⟩) := by
  intro i inside
  by_cases same : i = fd
  · rw [same, Function.update_self]
    exact Or.inl rfl
  · rw [Function.update_of_ne same]
    exact sound i inside

def Beside (fd : Int) : Prop := fd < 0 ∨ fd = openMax

theorem close_spec (sound : Sound fss t) {own : Table → Option (Int × Table)}
    (owns : ∀ ret t', own t = some (ret, t') → Sound fss t') (fd : Int) :
    (close fss own t fd = none ↔ Beside fd ∨ (fd < openMax ∧
        ∃ fs, (t fd.toNat).fs.bind (fss[·]?) = some fs ∧ fs.hasClose = true ∧ own t = none)) ∧
      ∀ ret t', close fss own t fd = some (ret, t') → Sound fss t' := by
  unfold close Beside
  by_cases beyond : fd > openMax
  · rw [if_pos beyond]
    constructor
    · apply Iff.intro nofun
      omega
    · rintro ret t' ⟨⟩
      exact sound
  · rw [if_neg beyond]
    by_cases beside : fd < 0 ∨ (openMax : Int) ≤ fd
    · rw [if_pos beside]
      apply And.intro _ nofun
      apply Iff.intro _ (fun _ => rfl)
      intro _
      omega
    · rw [if_neg beside]
      have apart : ¬ (fd < 0 ∨ fd = openMax) := by omega
      have inside : fd < openMax := by omega
      have there : ((fd.toNat : Nat) : Int) = fd := Int.toNat_of_nonneg (by omega)
      simp only [apart, inside, true_and, false_or]
      rcases sound fd.toNat (by omega) with free | ⟨f, known, held⟩
      · rw [free]
        simp only [Bool.false_eq_true, if_false, Option.bind_none]
        constructor
        · exact ⟨nofun, nofun⟩
        · rintro ret t' ⟨⟩
          exact sound
      · rw [held]
        have found : (some f).bind (fss[·]?) = some fss[f] := List.getElem?_eq_getElem known
        simp only [found, if_true, Option.some.injEq, exists_eq_left']
        by_cases callback : fss[f].hasClose = true
        · simp only [callback, if_true, true_and]
          rcases answer : own t with _ | ⟨ret, t''⟩
          · simp
          · have left := owns ret t'' answer
            simp only
            split
            · apply And.intro ⟨nofun, nofun⟩
              rintro _ _ ⟨⟩
              exact left
            · apply And.intro ⟨nofun, nofun⟩
              rintro _ _ ⟨⟩
              exact left.clear _
        · simp only [callback, Bool.false_eq_true, if_false, false_and, iff_false]
          constructor
          · exact Option.some_ne_none _
          · rintro _ _ ⟨⟩
            exact sound.clear _

theorem closeAll_spec (sound : Sound fss t) (fds : List Int) :
    (closeAll fss fds t = none ↔ ∃ fd ∈ fds, Beside fd) ∧ ∀ t', closeAll fss fds t = some t' →
      Sound fss t' := by
  induction fds generalizing t with
  | nil =>
    constructor
    · exact ⟨nofun, nofun⟩
    · rintro t' ⟨⟩
      exact sound
  | cons fd rest ih =>
    obtain ⟨faults, kept⟩ := @close_spec _ _ sound (fun t => some (0, t))
      (by rintro ret t' ⟨⟩; exact sound) fd
    have faults : close fss (fun t => some (0, t)) t fd = none ↔ Beside fd := by
      rw [faults]
      simp
    rw [closeAll]
    rcases answer : close fss (fun t => some (0, t)) t fd with _ | ⟨ret, t''⟩
    · apply And.intro _ nofun
      exact ⟨fun _ => ⟨fd, List.mem_cons_self, faults.mp answer⟩, fun _ => rfl⟩
    · obtain ⟨more, left⟩ := ih (kept ret t'' answer)
      apply And.intro _ left
      simp only [more, List.mem_cons, exists_eq_or_imp]
      apply Iff.intro Or.inr
      intro either
      apply either.resolve_left
      intro beside
      rw [faults.mpr beside] at answer
      cases answer

theorem step_spec (sound : Sound fss t) (op : Op) :
    (Answered fss t op ↔ Safe fss t op) ∧ ∀ ret t', step fss t op = some (ret, t') → Sound fss t' := by
  cases op with
  | «open» fname inner =>
    have runs : ∀ i t, Idle t → Fits fss t (useScript fss (inner i) [])
      (fun ok _ => ok = (useScript fss (inner i) []).opened)
        (runScript fss (inner i) t []) :=
      fun i t idle => @runScript_fits fss (inner i) _ _ [] idle (Over.refl fss t)
    obtain ⟨granted, faults⟩ := openFile_fits runs fname sound.idle
    simp only [Answered, Safe, step]
    by_cases room : (useOpen fss (fun i => useScript fss (inner i) []) fname).peak ≤ free t
    · obtain ⟨ret, t', taken, answer, meaning, upon, length, none⟩ := granted room
      rw [answer]
      simp only [Option.map_some, Option.some.injEq, Prod.mk.injEq, room, iff_true]
      constructor
      · refine ⟨ret, t', ⟨rfl, rfl⟩, ?_⟩
        cases result : (useOpen fss (fun i => useScript fss (inner i) []) fname).opened with
        | true =>
          rw [result, if_pos rfl] at meaning
          obtain ⟨fd, member, same, closed⟩ := meaning
          obtain ⟨inside, _, f, _, held⟩ := upon.taken fd member
          have others : ∀ i, (t i).valid → t' i = t i := by
            intro i valid
            apply upon.rest
            intro new
            rw [(upon.taken i new).2.1] at valid
            cases valid
          exact Or.inl ⟨fd, same, inside, closed, congrArg Entry.valid held, others⟩
        | false =>
          rw [result, if_neg Bool.false_ne_true] at meaning
          rw [none result] at upon
          exact Or.inr ⟨meaning, upon.eq⟩
      · rintro _ _ ⟨rfl, rfl⟩
        exact sound.take upon
    · rw [faults (Nat.not_le.mp room)]
      apply And.intro _ nofun
      simp [room]
  | close fd inner ret =>
    obtain ⟨fault, kept⟩ := closeAll_spec sound inner
    obtain ⟨faults, left⟩ := @close_spec _ _ sound (fun t => (closeAll fss inner t).map (ret, ·)) (by
      intro ret' t' done
      obtain ⟨t'', done, same⟩ := Option.map_eq_some_iff.mp done
      cases same
      exact kept _ done) fd
    apply And.intro _ left
    have apart : ∀ j : Int, ¬ Beside j ↔ 0 ≤ j ∧ j ≠ openMax := by
      intro j
      unfold Beside
      omega
    simp only [Answered, Safe, step, ne_eq, faults, Option.map_eq_none_iff, fault, not_or, not_and,
      not_exists, ← apart]

end

theorem along_iff {fss : List FileSystem} {t : Table} (sound : Sound fss t) (ops : List Op) :
    Along fss (Answered fss) t ops ↔ Along fss (Safe fss) t ops := by
  induction ops generalizing t with
  | nil => exact Iff.rfl
  | cons op rest ih =>
    obtain ⟨answered, kept⟩ := step_spec sound op
    apply and_congr answered
    constructor
    · exact fun holds ret t' done => (ih (kept ret t' done)).mp (holds ret t' done)
    · exact fun holds ret t' done => (ih (kept ret t' done)).mpr (holds ret t' done)

theorem calls_answered_iff (fss : List FileSystem) (ops : List Op) :
    Along fss (Answered fss) Table.blank ops ↔ Along fss (Safe fss) Table.blank ops :=
  along_iff (fun _ _ => Or.inl rfl) ops

def tty : FileSystem := ⟨[116, 116, 121], 1, true, true⟩

def openTty : Op := .open [47, 100, 101, 118, 47, 116, 116, 121, 48] fun _ => .succeed

theorem openTty_exhausts {t : Table} (sound : Sound [tty] t) {n : Nat} (count : free t = n) :
    ¬ Along [tty] (Safe [tty]) t (List.replicate (n + 1) openTty) := by
  induction n generalizing t with
  | zero =>
    rintro ⟨room, _⟩
    have room : 1 ≤ free t := room
    omega
  | succ n ih =>
    rintro ⟨room, after⟩
    have runs : ∀ i t, Idle t → Fits [tty] t ((fun _ => ⟨true, 0, 0⟩ : Nat → Usage) i) (fun ok _ => ok = true)
        (runScript [tty] .succeed t []) :=
      fun _ t idle => @runScript_fits [tty] .succeed _ _ [] idle (Over.refl [tty] t)
    obtain ⟨ret, t', taken, answer, _, upon, length, _⟩ :=
      (openFile_fits runs [47, 100, 101, 118, 47, 116, 116, 121, 48] sound.idle).1 room
    have length : taken.length = 1 := length
    have left := upon.free_add
    apply ih (sound.take upon) (by omega)
    apply after ret t'
    show (openFile _ _ _ t).map _ = _
    rw [answer]
    rfl

theorem table_exhausted : ¬ Along [tty] (Answered [tty]) Table.blank (List.replicate 65 openTty) := by
  have sound : Sound [tty] Table.blank := fun _ _ => Or.inl rfl
  rw [along_iff sound]
  exact openTty_exhausts sound (by decide)

end Embryo.Lib
