import Embryo.Machine.CString
import Embryo.Machine.Runs

namespace Embryo.Shell

open Embryo.Machine

def cmdMaxNum : Nat := 100

structure CmdTable where
  addr : Nat
  grpname : Str
deriving DecidableEq

/-- `cmds_list`, of which only the entries below `cmdMaxNum` exist. -/
abbrev CmdsList := Nat → Option CmdTable

def CmdsList.blank : CmdsList := fun _ => none

def CmdsList.named (list : CmdsList) (grpname : Str) (i : Nat) : Bool := (list i).any (·.grpname = grpname)

/-- A call of `add_cmds`: the pointer with the name found at it, and where in the group to put it. -/
structure AddCmds where
  cmds : Option (Nat × Option Str)
  tail : Bool

def CmdsList.shift (list : CmdsList) (i : Nat) : CmdsList :=
  fun k => if i < k ∧ k < cmdMaxNum then list (k - 1) else list k

/-- `add_cmds`, without a result where the number of bytes to copy is negative. -/
def addCmds (list : CmdsList) (call : AddCmds) : Option CmdsList :=
  match call.cmds with
  | none => some list
  | some (_, none) => some list
  | some (addr, some grpname) =>
    match (List.range cmdMaxNum).find? fun i => (list i).isNone || list.named grpname i with
    | none => some list
    | some i =>
      if (list i).isNone then some (Function.update list i (some ⟨addr, grpname⟩))
      else
        let i := if call.tail then ((List.range' i (cmdMaxNum - i)).find? fun k =>
          !list.named grpname k).getD cmdMaxNum else i
        if i < cmdMaxNum then some (Function.update (list.shift i) i (some ⟨addr, grpname⟩)) else none

structure CmdGroup where
  grpname : Str
  tables : List Nat

def CmdGroup.entries (g : CmdGroup) : List CmdTable := g.tables.map (⟨·, g.grpname⟩)

def contents (groups : List CmdGroup) : List CmdTable := groups.flatMap CmdGroup.entries

def CmdGroup.add (g : CmdGroup) (addr : Nat) (tail : Bool) : CmdGroup :=
  { g with tables := if tail then g.tables ++ [addr] else addr :: g.tables }

/-- What `add_cmds` is for: the groups by their names, each with the tables added to its start or end. -/
def register (groups : List CmdGroup) (call : AddCmds) : List CmdGroup :=
  match call.cmds with
  | none => groups
  | some (_, none) => groups
  | some (addr, some grpname) =>
    if groups.any (·.grpname = grpname) then groups.map fun g =>
      if g.grpname = grpname then g.add addr call.tail else g
    else groups ++ [⟨grpname, [addr]⟩]

structure Lists (list : CmdsList) (groups : List CmdGroup) : Prop where
  apart : (groups.map CmdGroup.grpname).Nodup
  filled : ∀ g ∈ groups, g.tables ≠ []
  room : (contents groups).length < cmdMaxNum
  held : ∀ k < cmdMaxNum, list k = (contents groups)[k]?

def Registers (list : CmdsList) (call : AddCmds) : Prop :=
  ∃ groups list', Lists list groups ∧ addCmds list call = some list' ∧ Lists list' (register groups call)

def Spacious (list : CmdsList) (call : AddCmds) : Prop :=
  ∀ addr grpname, call.cmds = some (addr, some grpname) → ∃ k, k + 1 < cmdMaxNum ∧ list k = none

structure Holding (list : CmdsList) (l : List CmdTable) : Prop where
  room : l.length < cmdMaxNum
  held : ∀ k < cmdMaxNum, list k = l[k]?

section

variable {list list' : CmdsList} {l a b c : List CmdTable} {groups : List CmdGroup} {e : CmdTable}
  {addr : Nat} {grpname : Str}
  {tail : Bool}

theorem named_iff {i : Nat} : list.named grpname i = true ↔ ∃ e, list i = some e ∧ e.grpname = grpname := by
  simp [CmdsList.named, Option.any_eq_true]

theorem Holding.named (holding : Holding list (a ++ b ++ c)) (all : ∀ e ∈ b, e.grpname = grpname)
    {k : Nat} (low : a.length ≤ k) (high : k < a.length + b.length) : list.named grpname k = true := by
  have room := holding.room
  simp only [List.length_append] at room
  refine named_iff.mpr ⟨b[k - a.length], ?_, all _ (List.getElem_mem _)⟩
  rw [holding.held k (by omega), List.append_assoc, List.getElem?_append_right low,
    List.getElem?_append_left (by omega),
    List.getElem?_eq_getElem]

theorem Holding.other (holding : Holding list (a ++ b)) (none : ∀ e ∈ a, e.grpname ≠ grpname)
    {k : Nat} (inside : k < a.length) :
    ((list k).isNone || list.named grpname k) = false := by
  have room := holding.room
  rw [List.length_append] at room
  have held := holding.held k (by omega)
  rw [List.getElem?_append_left inside, List.getElem?_eq_getElem inside] at held
  rw [CmdsList.named, held]
  simpa using none _ (List.getElem_mem inside)

theorem Holding.search (holding : Holding list (a ++ b)) (none : ∀ e ∈ a, e.grpname ≠ grpname)
    (stop : b = [] ∨ list.named grpname a.length = true) :
    (List.range cmdMaxNum).find? (fun i => (list i).isNone || list.named grpname i) = some a.length := by
  have room := holding.room
  rw [List.length_append] at room
  apply List.find?_range_eq_some.mpr
  refine ⟨?_, List.mem_range.mpr (by omega), ?_⟩
  · rcases stop with rfl | found
    · rw [holding.held a.length (by omega), List.append_nil, List.getElem?_eq_none (Nat.le_refl _)]
      rfl
    · rw [found, Bool.or_true]
  · intro j inside
    rw [holding.other none inside]
    rfl

theorem Holding.groupEnd (holding : Holding list (a ++ b ++ c)) (all : ∀ e ∈ b, e.grpname = grpname)
    (none : ∀ e ∈ c, e.grpname ≠ grpname) :
    (List.range' a.length (cmdMaxNum - a.length)).find? (fun k => !list.named grpname k) =
      some (a.length + b.length) := by
  have room := holding.room
  simp only [List.length_append] at room
  apply List.find?_range'_eq_some.mpr
  refine ⟨?_, List.mem_range'_1.mpr (by omega), ?_⟩
  · rw [Bool.not_eq_true', ← Bool.not_eq_true, named_iff]
    rintro ⟨e, here, same⟩
    rw [holding.held _ (by omega), List.getElem?_append_right (by simp), List.length_append,
      Nat.sub_self] at here
    exact none e (List.mem_of_getElem? here) same
  · intro j low high
    rw [holding.named all low high]
    rfl

theorem Holding.insert (holding : Holding list (a ++ b)) (e : CmdTable) {k : Nat} (inside : k < cmdMaxNum) :
    Function.update (list.shift a.length) a.length (some e) k = (a ++ e :: b)[k]? := by
  have held := holding.held
  unfold CmdsList.shift
  grind

theorem addCmds_new (holding : Holding list l) (none : ∀ e ∈ l, e.grpname ≠ grpname) :
    ∃ list', addCmds list ⟨some (addr, some grpname), tail⟩ = some list' ∧
      ∀ k < cmdMaxNum, list' k = (l ++ [⟨addr, grpname⟩])[k]? := by
  rw [← List.append_nil l] at holding
  have room := holding.room
  have free : list l.length = Option.none := by
    rw [holding.held l.length (by simpa using room), List.append_nil, List.getElem?_eq_none (Nat.le_refl _)]
  rw [addCmds]
  simp only [holding.search none (.inl rfl), free]
  refine ⟨_, rfl, ?_⟩
  intro k inside
  rw [← holding.insert _ inside]
  by_cases here : k = l.length
  · rw [here, Function.update_self, Function.update_self]
  · rw [Function.update_of_ne here, Function.update_of_ne here, CmdsList.shift]
    split
    · rename_i beyond
      rw [holding.held k inside, holding.held (k - 1) (by omega), List.append_nil,
        List.getElem?_eq_none (by omega),
        List.getElem?_eq_none (by omega)]
    · rfl

theorem addCmds_group (holding : Holding list (a ++ b ++ c)) (before : ∀ e ∈ a, e.grpname ≠ grpname)
    (all : ∀ e ∈ b, e.grpname = grpname) (some' : b ≠ []) (after : ∀ e ∈ c, e.grpname ≠ grpname) :
    ∃ list', addCmds list ⟨some (addr, some grpname), tail⟩ = some list' ∧
      ∀ k < cmdMaxNum, list' k = (a ++ (if tail then b ++ [⟨addr, grpname⟩]
        else ⟨addr, grpname⟩ :: b) ++ c)[k]? := by
  have positive := List.length_pos_of_ne_nil some'
  have room := holding.room
  simp only [List.length_append] at room
  have first := holding.named all (Nat.le_refl _) (by omega)
  obtain ⟨e, there, _⟩ := named_iff.mp first
  have found := @Holding.search list a (b ++ c) grpname (List.append_assoc a b c ▸ holding) before
    (.inr first)
  rw [addCmds]
  simp only [found, there, Option.isNone_some, Bool.false_eq_true, if_false]
  cases tail with
  | false =>
    simp only [Bool.false_eq_true, if_false]
    rw [if_pos (by omega)]
    refine ⟨_, rfl, ?_⟩
    intro k inside
    rw [List.append_assoc] at holding ⊢
    exact holding.insert _ inside
  | true =>
    simp only [if_true, holding.groupEnd all after, Option.getD_some]
    rw [if_pos (by omega)]
    refine ⟨_, rfl, ?_⟩
    intro k inside
    have inserted := holding.insert ⟨addr, grpname⟩ inside
    rw [List.length_append] at inserted
    rw [inserted]
    simp

theorem contents_other (other : ∀ g ∈ groups, g.grpname ≠ grpname) :
    ∀ e ∈ contents groups, e.grpname ≠ grpname := by
  intro e member
  obtain ⟨g, known, inside⟩ := List.mem_flatMap.mp member
  obtain ⟨addr, _, rfl⟩ := List.mem_map.mp inside
  exact other g known

theorem register_new (other : ∀ g ∈ groups, g.grpname ≠ grpname) :
    register groups ⟨some (addr, some grpname), tail⟩ = groups ++ [⟨grpname, [addr]⟩] := by
  rw [register]
  simp only
  rw [if_neg]
  simpa using other

theorem register_group {before after : List CmdGroup} {g : CmdGroup}
    (apart : ((before ++ g :: after).map CmdGroup.grpname).Nodup) :
    register (before ++ g :: after)
    ⟨some (addr, some g.grpname), tail⟩ = before ++ g.add addr tail :: after := by
  have other : ∀ h ∈ before ++ after, h.grpname ≠ g.grpname := by
    rw [List.map_append, List.map_cons] at apart
    have fresh := (List.nodup_middle.mp apart).notMem
    rw [← List.map_append] at fresh
    exact fun h member same => fresh (same ▸ List.mem_map_of_mem member)
  have idle : ∀ l : List CmdGroup, (∀ h ∈ l, h.grpname ≠ g.grpname) →
      l.map (fun h => if h.grpname = g.grpname then h.add addr tail else h) = l := by
    intro l different
    conv_rhs => rw [← List.map_id l]
    exact List.map_congr_left fun h member => if_neg (different h member)
  rw [register]
  simp only
  rw [if_pos (by simp), List.map_append, List.map_cons, if_pos rfl,
    idle before fun h member => other h (List.mem_append_left after member),
    idle after fun h member => other h (List.mem_append_right before member)]

theorem CmdGroup.add_entries (g : CmdGroup) (addr : Nat) (tail : Bool) :
    (g.add addr tail).entries = if tail then g.entries ++ [⟨addr, g.grpname⟩]
      else ⟨addr, g.grpname⟩ :: g.entries := by
  cases tail
  · rfl
  · exact List.map_append

theorem contents_split (before : List CmdGroup) (g : CmdGroup) (after : List CmdGroup) :
    contents (before ++ g :: after) = contents before ++ g.entries ++ contents after := by
  rw [contents, List.flatMap_append, List.flatMap_cons, List.append_assoc]
  rfl

theorem register_perm (apart : (groups.map CmdGroup.grpname).Nodup) :
    (contents (register groups ⟨some (addr, some grpname), tail⟩)).Perm
      (⟨addr, grpname⟩ :: contents groups) := by
  by_cases known : ∃ g ∈ groups, g.grpname = grpname
  · obtain ⟨g, member, rfl⟩ := known
    obtain ⟨before, after, rfl⟩ := List.append_of_mem member
    rw [register_group apart, contents_split, contents_split, CmdGroup.add_entries,
      List.append_assoc, List.append_assoc]
    cases tail with
    | false => exact List.perm_middle
    | true =>
      simp only [if_true, List.append_assoc, List.singleton_append]
      exact (List.Perm.append_left _ List.perm_middle).trans List.perm_middle
  · rw [register_new fun g member same => known ⟨g, member, same⟩, contents, List.flatMap_append]
    exact List.perm_append_singleton _ _

theorem register_named (apart : (groups.map CmdGroup.grpname).Nodup) (filled : ∀ g ∈ groups, g.tables ≠ []) :
    ((register groups ⟨some (addr, some grpname), tail⟩).map CmdGroup.grpname).Nodup ∧
      ∀ g ∈ register groups ⟨some (addr, some grpname), tail⟩, g.tables ≠ [] := by
  by_cases known : ∃ g ∈ groups, g.grpname = grpname
  · obtain ⟨g, member, rfl⟩ := known
    obtain ⟨before, after, rfl⟩ := List.append_of_mem member
    rw [register_group apart]
    constructor
    · rw [List.map_append, List.map_cons] at apart ⊢
      exact apart
    · intro h held
      rcases List.mem_append.mp held with old | held
      · exact filled h (List.mem_append_left _ old)
      · rcases List.mem_cons.mp held with rfl | old
        · cases tail <;> simp [CmdGroup.add]
        · exact filled h (List.mem_append_right _ (List.mem_cons_of_mem _ old))
  · have other : ∀ g ∈ groups, g.grpname ≠ grpname := fun g member same => known ⟨g, member, same⟩
    rw [register_new other]
    constructor
    · rw [List.map_append, List.map_singleton]
      refine List.nodup_append.mpr ⟨apart, List.nodup_singleton _, ?_⟩
      intro name old _ new
      obtain ⟨g, member, rfl⟩ := List.mem_map.mp old
      rw [List.mem_singleton.mp new]
      exact other g member
    · intro h held
      rcases List.mem_append.mp held with old | new
      · exact filled h old
      · rw [List.mem_singleton.mp new]
        exact List.cons_ne_nil _ _

theorem Lists.stored (lists : Lists list groups) :
    ∃ list', addCmds list ⟨some (addr, some grpname), tail⟩ = some list' ∧
      ∀ k < cmdMaxNum, list' k = (contents (register groups ⟨some (addr, some grpname), tail⟩))[k]? := by
  have holding : Holding list (contents groups) := ⟨lists.room, lists.held⟩
  by_cases known : ∃ g ∈ groups, g.grpname = grpname
  · obtain ⟨g, member, rfl⟩ := known
    obtain ⟨before, after, rfl⟩ := List.append_of_mem member
    have apart := lists.apart
    rw [List.map_append, List.map_cons] at apart
    have fresh := (List.nodup_middle.mp apart).notMem
    rw [List.mem_append, not_or] at fresh
    rw [contents_split] at holding
    rw [register_group lists.apart, contents_split, CmdGroup.add_entries]
    apply addCmds_group holding
    · exact contents_other fun h held same => fresh.1 (same ▸ List.mem_map_of_mem held)
    · intro e held
      obtain ⟨addr, _, rfl⟩ := List.mem_map.mp held
      rfl
    · exact fun empty => lists.filled g member (List.map_eq_nil_iff.mp empty)
    · exact contents_other fun h held same => fresh.2 (same ▸ List.mem_map_of_mem held)
  · have other : ∀ g ∈ groups, g.grpname ≠ grpname := fun g member same => known ⟨g, member, same⟩
    rw [register_new other, contents, List.flatMap_append]
    exact addCmds_new holding (contents_other other)

theorem Lists.length_eq (lists : Lists list groups) {k : Nat} (inside : k < cmdMaxNum) :
    list k = none ↔ (contents groups).length ≤ k := by
  rw [lists.held k inside]
  exact List.getElem?_eq_none_iff

theorem Lists.free (lists : Lists list groups) :
    (∃ k, k + 1 < cmdMaxNum ∧ list k = none) ↔ (contents groups).length + 1 < cmdMaxNum := by
  constructor
  · rintro ⟨k, inside, free⟩
    have := (lists.length_eq (by omega)).mp free
    omega
  · intro few
    exact ⟨_, few, (lists.length_eq (by omega)).mpr (Nat.le_refl _)⟩

theorem Lists.registers_iff (lists : Lists list groups) (call : AddCmds) :
    Registers list call ↔ Spacious list call := by
  obtain ⟨cmds, tail⟩ := call
  rcases cmds with _ | ⟨addr, _ | grpname⟩
  · exact iff_of_true ⟨groups, list, lists, rfl, lists⟩ nofun
  · exact iff_of_true ⟨groups, list, lists, rfl, lists⟩ nofun
  · have spacious : Spacious list ⟨some (addr, some grpname), tail⟩ ↔ ∃ k, k + 1 < cmdMaxNum ∧
        list k = none := by
      unfold Spacious
      simp
    rw [spacious]
    constructor
    · rintro ⟨groups', list', lists', _, after⟩
      rw [lists'.free]
      have grown :=
        (register_perm lists'.apart :
          (contents (register groups' ⟨some (addr, some grpname), tail⟩)).Perm _).length_eq
      have room := after.room
      rw [List.length_cons] at grown
      rwa [← grown]
    · intro free
      obtain ⟨list', stored, held⟩ := @Lists.stored list groups addr grpname tail lists
      obtain ⟨apart, filled⟩ := @register_named groups addr grpname tail lists.apart lists.filled
      have grown :=
        (register_perm lists.apart :
          (contents (register groups ⟨some (addr, some grpname), tail⟩)).Perm _).length_eq
      rw [List.length_cons] at grown
      exact ⟨groups, list', lists, stored, apart, filled, grown ▸ lists.free.mp free, held⟩

theorem Lists.overfilled (lists : Lists list groups) {n : Nat}
    (many : cmdMaxNum ≤ (contents groups).length + n) :
    ¬ Each addCmds Registers list (List.replicate n ⟨some (addr, some grpname), tail⟩) := by
  induction n generalizing list groups with
  | zero => exact absurd lists.room (Nat.not_lt.mpr many)
  | succ n ih =>
    intro ⟨⟨groups', list', before, added, after⟩, later⟩
    have same : (contents groups').length = (contents groups).length := by
      have here := lists.length_eq before.room
      have there := before.length_eq lists.room
      rw [before.length_eq before.room] at here
      rw [lists.length_eq lists.room] at there
      omega
    have grown :=
      (register_perm before.apart :
        (contents (register groups' ⟨some (addr, some grpname), tail⟩)).Perm _).length_eq
    rw [List.length_cons] at grown
    exact ih after (by omega) (later list' added)

theorem blank_lists : Lists CmdsList.blank [] := ⟨List.nodup_nil, nofun, by decide, fun _ _ => rfl⟩

end

theorem cmds_registered_iff (calls : List AddCmds) :
    Each addCmds Registers CmdsList.blank calls ↔ Each addCmds Spacious CmdsList.blank calls := by
  apply each_iff (fun list => ∃ groups, Lists list groups) _ _ ⟨[], blank_lists⟩
  · exact fun list call ⟨groups, lists⟩ => lists.registers_iff call
  · rintro list call list' _ ⟨groups, after, _, added, lists⟩ added'
    cases added.symm.trans added'
    exact ⟨_, lists⟩

/-- A hundred tables fill the list to its last entry, and no null pointer is left for a search to stop at. -/
theorem hundred_tables_overfill :
    ¬ Each addCmds Registers CmdsList.blank (List.replicate 100 ⟨some (4096, some [97]), true⟩) :=
  blank_lists.overfilled (Nat.le_refl _)

end Embryo.Shell
