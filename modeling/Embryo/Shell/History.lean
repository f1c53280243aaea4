import Embryo.Machine.CString
import Embryo.Machine.Loop

namespace Embryo.Shell

open Embryo.Machine

def histMaxNum : Nat := 256

def histNext (n : Nat) : Nat := if n + 1 ≥ histMaxNum then 0 else n + 1

def histLast (n : Nat) : Nat := if n = 0 then histMaxNum - 1 else n - 1

/-- A command in the block it was copied to, the size of the block, and what stands behind its
    characters up to the next terminator. The block has no room for that. -/
structure Stored where
  text : Str
  room : Nat
  behind : Str
deriving DecidableEq

def Stored.string (st : Stored) : Str := st.text ++ st.behind

structure Hist where
  cur : Nat
  new : Nat
  old : Nat
  no : Int
  tab : Nat → Option Stored

namespace Hist

def init : Hist := ⟨0, 0, 0, 0, fun _ => none⟩

/-- `add_hist_cmd`, with a `malloc` that succeeds. -/
def addHistCmd (s : Hist) (cmd : Str) : Hist :=
  if strempty cmd then s
  else if (s.tab (histLast s.new)).map Stored.string = some cmd then s
  else
    let old := if s.new = s.old ∧ (s.tab s.old).isSome then histNext s.old else s.old
    let new := histNext s.new
    ⟨new, new, old, (BitVec.ofInt 32 (s.no + 1)).toInt,
      Function.update s.tab s.new (some ⟨cmd, cmd.length, []⟩)⟩

def getLastCmd (s : Hist) : Option Str × Hist :=
  if s.cur = s.old then (none, s)
  else
    match s.tab (histLast s.cur) with
    | none => (none, s)
    | some last => (some last.string, { s with cur := histLast s.cur })

def readLastCmd (s : Hist) : Option Str :=
  if s.cur = s.old then none else (s.tab (histLast s.cur)).map Stored.string

def getNextCmd (s : Hist) : Option Str × Hist :=
  if histNext s.cur = s.new then (none, s)
  else
    match s.tab (histNext s.cur) with
    | none => (none, s)
    | some next => (some next.string, { s with cur := histNext s.cur })

def prefixPass (s : Hist) (pfx : Str) (i : Nat) : Pass Nat (Option Str) :=
  if i = histLast s.old then .leave none
  else
    match s.tab i with
    | none => .leave none
    | some cmd =>
      if strncmpZero cmd.string pfx pfx.length then .leave (some cmd.string) else .again (histLast i)

/-- The loop of `find_hist_by_prefix`, which comes round after `HIST_MAX_NUM` passes. -/
def findHistByPrefix (s : Hist) (pfx : Str) : Option (Option Str) :=
  loop (fun i => some (s.prefixPass pfx i)) (histMaxNum + 1) (histLast s.new)

/-- `find_hist_by_num`, without a result where it reads beside the table. -/
def findHistByNum (s : Hist) (num : Int) : Option (Option Str) :=
  let pos := num - 1
  if num > s.no ∨ num ≤ s.no - histMaxNum then some none
  else
    let pos := if num > histMaxNum then pos - histMaxNum else pos
    if 0 ≤ pos ∧ pos < histMaxNum then some ((s.tab pos.toNat).map Stored.string) else none

def calls (f : Hist → Option Str × Hist) : Nat → Hist → List (Option Str) × Hist
  | 0, s => ([], s)
  | m + 1, s =>
    let (r, s) := f s
    let (rest, s) := calls f m s
    (r :: rest, s)

end Hist

inductive Event where
  | add (cmd : Str)
  | store (i : Nat) (behind : Str)

def Hist.step (s : Hist) : Event → Hist
  | .add cmd => s.addHistCmd cmd
  | .store i behind =>
    { s with tab := Function.update s.tab i ((s.tab i).map fun st => { st with behind := behind }) }

def keep (h : List Str) (cmd : Str) : List Str :=
  if strempty cmd then h else if h.getLast? = some cmd then h else h ++ [cmd]

structure Holds (s : Hist) (h : List Str) : Prop where
  cur : s.cur = s.new
  new : s.new = h.length % 256
  old : s.old = if h.length < 256 then 0 else h.length % 256
  no : s.no = (BitVec.ofInt 32 h.length).toInt
  held : ∀ j < h.length, h.length ≤ j + 256 → (s.tab (j % 256)).map Stored.string = h[j]?
  unused : ∀ i, h.length ≤ i ∨ 256 ≤ i → s.tab i = none

theorem holds_init : Holds Hist.init [] where
  cur := rfl
  new := rfl
  old := rfl
  no := rfl
  held := fun _ less => absurd less (Nat.not_lt_zero _)
  unused := fun _ _ => rfl

theorem histLast_eq {n : Nat} (bound : n < 256) : histLast n = (n + 255) % 256 := by
  unfold histLast histMaxNum
  split <;> omega

theorem histNext_eq {n : Nat} (bound : n < 256) : histNext n = (n + 1) % 256 := by
  unfold histNext histMaxNum
  split <;> omega

theorem Holds.last {s : Hist} {h : List Str} (holds : Holds s h) :
    (s.tab (histLast s.new)).map Stored.string = h.getLast? := by
  have bound := Nat.mod_lt h.length (show 0 < 256 by decide)
  rw [holds.new, histLast_eq bound, List.getLast?_eq_getElem?]
  by_cases empty : h.length = 0
  · rw [holds.unused _ (by omega), List.getElem?_eq_none (by omega)]
    rfl
  · have place : (h.length % 256 + 255) % 256 = (h.length - 1) % 256 := by omega
    rw [place]
    exact holds.held _ (by omega) (by omega)

theorem int32_succ (n : Nat) :
    (BitVec.ofInt 32 ((BitVec.ofInt 32 n).toInt + 1)).toInt = (BitVec.ofInt 32 (n + 1 : Nat)).toInt := by
  congr 1
  apply BitVec.eq_of_toInt_eq
  simp only [BitVec.toInt_ofInt]
  push_cast
  simp [Int.bmod_add_bmod]

theorem Holds.add {s : Hist} {h : List Str} (holds : Holds s h) (cmd : Str) :
    Holds (s.addHistCmd cmd) (keep h cmd) := by
  unfold Hist.addHistCmd keep
  by_cases blank : strempty cmd
  · rw [if_pos blank, if_pos blank]
    exact holds
  · rw [if_neg blank, if_neg blank, holds.last]
    by_cases again : h.getLast? = some cmd
    · rw [if_pos again, if_pos again]
      exact holds
    · rw [if_neg again, if_neg again]
      have new := holds.new
      have old := holds.old
      have bound := Nat.mod_lt h.length (show 0 < 256 by decide)
      have length : (h ++ [cmd]).length = h.length + 1 := by simp
      have full : (s.new = s.old ∧ (s.tab s.old).isSome) ↔ 256 ≤ h.length := by
        constructor
        · intro ⟨same, there⟩
          by_contra few
          rw [if_pos (by omega)] at old
          rw [old, holds.unused 0 (by omega)] at there
          cases there
        · intro many
          rw [if_neg (by omega)] at old
          refine ⟨new.trans old.symm, ?_⟩
          have oldest := holds.held (h.length - 256) (by omega) (by omega)
          have place : (h.length - 256) % 256 = h.length % 256 := by omega
          rw [place, List.getElem?_eq_getElem (by omega)] at oldest
          rw [old]
          rcases found : s.tab (h.length % 256) with _ | st
          · rw [found] at oldest
            cases oldest
          · rfl
      constructor
      · rfl
      · show histNext s.new = _
        rw [length, new, histNext_eq bound]
        omega
      · show (if s.new = s.old ∧ (s.tab s.old).isSome then histNext s.old else s.old) = _
        rw [length]
        by_cases many : 256 ≤ h.length
        · rw [if_pos (full.mpr many), if_neg (by omega), (full.mpr many).1.symm, new, histNext_eq bound]
          omega
        · rw [if_neg (fun both => many (full.mp both)), old, if_pos (by omega)]
          split <;> omega
      · show (BitVec.ofInt 32 (s.no + 1)).toInt = _
        rw [length, holds.no]
        exact int32_succ h.length
      · intro j less near
        rw [length] at less near
        show (Function.update s.tab s.new (some ⟨cmd, cmd.length, []⟩) (j % 256)).map Stored.string = _
        by_cases newest : j = h.length
        · subst newest
          rw [new, Function.update_self, List.getElem?_append_right (Nat.le_refl _), Nat.sub_self]
          simp [Stored.string]
        · rw [new, Function.update_of_ne (by omega), List.getElem?_append_left (by omega)]
          exact holds.held j (by omega) (by omega)
      · intro i beyond
        rw [length] at beyond
        show Function.update s.tab s.new (some ⟨cmd, cmd.length, []⟩) i = none
        rw [new, Function.update_of_ne (by omega)]
        exact holds.unused i (by omega)

def typed (cmds : List Str) : Hist := cmds.foldl Hist.addHistCmd Hist.init

def kept (cmds : List Str) : List Str := cmds.foldl keep []

theorem typed_holds (cmds : List Str) : Holds (typed cmds) (kept cmds) := by
  have run : ∀ {s h}, Holds s h → Holds (cmds.foldl Hist.addHistCmd s) (cmds.foldl keep h) := by
    induction cmds with
    | nil => exact id
    | cons cmd rest ih => exact fun holds => ih (holds.add cmd)
  exact run holds_init

theorem keep_mem {h : List Str} {cmd c : Str} (member : c ∈ keep h cmd) :
    c ∈ h ∨ c = cmd ∧ strempty cmd = false := by
  unfold keep at member
  split_ifs at member with blank
  · exact .inl member
  · exact .inl member
  · rcases List.mem_append.mp member with old | new
    · exact .inl old
    · exact .inr ⟨List.mem_singleton.mp new, Bool.not_eq_true _ ▸ blank⟩

theorem kept_mem {cmds : List Str} {c : Str} (member : c ∈ kept cmds) : c ∈ cmds ∧ strempty c = false := by
  have run : ∀ (cmds h : List Str), c ∈ cmds.foldl keep h → c ∈ h ∨ c ∈ cmds ∧ strempty c = false := by
    intro cmds
    induction cmds with
    | nil => exact fun _ => .inl
    | cons cmd rest ih =>
      intro h member
      rcases ih _ member with before | ⟨later, word⟩
      · rcases keep_mem before with old | ⟨rfl, word⟩
        · exact .inl old
        · exact .inr ⟨List.mem_cons_self, word⟩
      · exact .inr ⟨List.mem_cons_of_mem _ later, word⟩
  exact (run cmds [] member).resolve_left List.not_mem_nil

section

variable {s : Hist} {h : List Str}

theorem Holds.read_last (holds : Holds s h) :
    s.readLastCmd = if h.length < 256 then h.getLast? else none := by
  have cur := holds.cur
  have new := holds.new
  have old := holds.old
  by_cases few : h.length < 256
  · rw [if_pos few] at old ⊢
    by_cases empty : h.length = 0
    · rw [Hist.readLastCmd, if_pos (by omega), List.length_eq_zero_iff.mp empty]
      rfl
    · rw [Hist.readLastCmd, if_neg (by omega), cur, holds.last]
  · rw [if_neg few] at old ⊢
    rw [Hist.readLastCmd, if_pos (by omega)]

theorem Holds.few (holds : Holds s h) (few : h.length < 256) {j : Nat} (less : j < h.length) :
    (s.tab j).map Stored.string = h[j]? := by
  have held := holds.held j less (by omega)
  rwa [Nat.mod_eq_of_lt (by omega)] at held

theorem Holds.last_at (holds : Holds s h) (few : h.length < 256) {c : Nat} (inside : c ≤ h.length) :
    Hist.getLastCmd { s with cur := c } = (if c = 0 then none else h[c - 1]?, { s with cur := c - 1 }) := by
  have old := holds.old
  rw [if_pos few] at old
  by_cases bottom : c = 0
  · subst bottom
    rw [Hist.getLastCmd, if_pos old.symm, if_pos rfl]
  · have place : histLast c = c - 1 := if_neg bottom
    have found := holds.few few (show c - 1 < h.length by omega)
    rw [List.getElem?_eq_getElem (by omega)] at found
    obtain ⟨st, there, text⟩ := Option.map_eq_some_iff.mp found
    rw [Hist.getLastCmd, if_neg (by rw [old]; exact bottom), if_neg bottom]
    simp only [place, there, text]
    rw [List.getElem?_eq_getElem (by omega)]

theorem Holds.next_at (holds : Holds s h) (few : h.length < 256) {c : Nat} (inside : c < h.length) :
    Hist.getNextCmd { s with cur := c } = (h[c + 1]?,
      { s with cur := if c + 1 = h.length then c else c + 1 }) := by
  have new := holds.new
  have place : histNext c = c + 1 := by
    rw [histNext_eq (by omega)]
    omega
  by_cases top : c + 1 = h.length
  · rw [Hist.getNextCmd, if_pos, if_pos top, List.getElem?_eq_none (by omega)]
    simp only [place, new]
    omega
  · have found := holds.few few (show c + 1 < h.length by omega)
    rw [List.getElem?_eq_getElem (by omega)] at found
    obtain ⟨st, there, text⟩ := Option.map_eq_some_iff.mp found
    rw [Hist.getNextCmd, if_neg, if_neg top]
    · simp only [place, there, text]
      rw [List.getElem?_eq_getElem (by omega)]
    · simp only [place, new]
      omega

theorem last_answers (holds : Holds s h) (few : h.length < 256) (m c : Nat) (inside : c ≤ h.length) :
    Hist.calls Hist.getLastCmd m { s with cur := c } =
      ((List.range m).map (fun k => if k < c then h[c - 1 - k]? else none), { s with cur := c - m }) := by
  induction m generalizing c with
  | zero => rfl
  | succ m ih =>
    rw [Hist.calls, List.range_succ_eq_map, List.map_cons, List.map_map, holds.last_at few inside]
    simp only [ih (c - 1) (by omega), Nat.sub_zero, Nat.sub_sub, Nat.add_comm 1 m]
    congr 2
    · by_cases bottom : c = 0
      · rw [if_pos bottom, if_neg (by omega)]
      · rw [if_neg bottom, if_pos (by omega)]
    · apply List.map_congr_left
      intro k _
      simp only [Function.comp_apply]
      have same : c - (1 + 1 + k) = c - (1 + (k + 1)) := by omega
      by_cases less : k < c - 1
      · rw [if_pos less, if_pos (by omega), same]
      · rw [if_neg less, if_neg (by omega)]

theorem next_answers (holds : Holds s h) (few : h.length < 256) (m c : Nat) (inside : c < h.length) :
    (Hist.calls Hist.getNextCmd m { s with cur := c }).1 =
      (List.range m).map (fun k => if c + 1 + k < h.length then h[c + 1 + k]? else none) := by
  induction m generalizing c with
  | zero => rfl
  | succ m ih =>
    rw [Hist.calls, List.range_succ_eq_map, List.map_cons, List.map_map, holds.next_at few inside]
    by_cases top : c + 1 = h.length
    · simp only [if_pos top, ih c inside, Nat.add_zero]
      rw [if_neg (by omega), List.getElem?_eq_none (by omega)]
      congr 1
      apply List.map_congr_left
      intro k _
      simp only [Function.comp_apply]
      rw [if_neg (by omega), if_neg (by omega)]
    · simp only [if_neg top, ih (c + 1) (by omega), Nat.add_zero]
      rw [if_pos (by omega)]
      congr 1
      apply List.map_congr_left
      intro k _
      simp only [Function.comp_apply]
      have same : c + 1 + 1 + k = c + 1 + (k + 1) := by omega
      rw [same]

theorem prefix_answers (holds : Holds s h) (few : h.length < 256) (pfx : Str) {c fuel : Nat}
    (inside : c ≤ h.length) (enough : c < fuel) :
    loop (fun i => some (s.prefixPass pfx i)) fuel (histLast c) =
      some ((h.take c).reverse.find? fun cmd => strncmpZero cmd pfx pfx.length) := by
  have old := holds.old
  rw [if_pos few] at old
  induction c generalizing fuel with
  | zero =>
    apply loop_leave (by omega)
    rw [Hist.prefixPass, if_pos (by rw [old])]
    rfl
  | succ c ih =>
    obtain ⟨fuel, rfl⟩ : ∃ rest, fuel = rest + 1 := ⟨fuel - 1, by omega⟩
    have found := holds.few few (show c < h.length by omega)
    rw [List.getElem?_eq_getElem (by omega)] at found
    obtain ⟨st, there, text⟩ := Option.map_eq_some_iff.mp found
    have onward : histLast (c + 1) ≠ histLast s.old := by
      rw [old]
      simp only [histLast, histMaxNum, Nat.succ_ne_zero, if_false, if_true]
      omega
    have place : histLast (c + 1) = c := rfl
    rw [List.take_succ_eq_append_getElem (by omega), List.reverse_append, List.reverse_singleton,
      List.singleton_append,
      List.find?_cons]
    by_cases starts : strncmpZero h[c] pfx pfx.length = true
    · rw [starts]
      apply loop_leave (by omega)
      rw [Hist.prefixPass, if_neg onward, place, there]
      simp only [text, starts, if_true]
    · have again : s.prefixPass pfx (histLast (c + 1)) = .again (histLast c) := by
        rw [Hist.prefixPass, if_neg onward, place, there]
        simp only [text, starts]
        rfl
      rw [Bool.not_eq_true] at starts
      rw [starts, loop_again (by rw [again]), ih (by omega) (by omega)]

/-- From the newest position, `get_last_cmd` goes through the last commands and `get_next_cmd` back. -/
structure Recalls (s : Hist) (h : List Str) : Prop where
  back : ∀ m, (Hist.calls Hist.getLastCmd m s).1 =
    (List.range m).map fun k => if k < 256 then h.reverse[k]? else none
  forth : ∀ m, 1 ≤ m → m ≤ min 256 h.length → ∀ j,
    (Hist.calls Hist.getNextCmd j (Hist.calls Hist.getLastCmd m s).2).1 =
      (List.range j).map fun i => if i + 1 < m then h.reverse[m - 2 - i]? else none

def ByNum (s : Hist) (h : List Str) (n : Int) : Prop :=
  s.findHistByNum n = some (if 1 ≤ n ∧ (h.length : Int) - 256 < n ∧
    n ≤ h.length then h[n.toNat - 1]? else none)

def ByPrefix (s : Hist) (h : List Str) (pfx : Str) : Prop :=
  s.findHistByPrefix pfx = some ((h.drop (h.length - 256)).reverse.find? pfx.isPrefixOf)

def Inside (s : Hist) : Prop := ∀ i st, s.tab i = some st → st.string.length + 1 ≤ st.room

/-- In a full table the oldest command lies where the next one goes, so that there is none before
    the newest position. -/
theorem Holds.stops (holds : Holds s h) (many : ¬h.length < 256) : Hist.getLastCmd s = (none, s) := by
  have new := holds.new
  have cur := holds.cur
  have old := holds.old
  rw [if_neg many] at old
  rw [Hist.getLastCmd, if_pos]
  omega

theorem recalls_iff (holds : Holds s h) : Recalls s h ↔ h.length < 256 := by
  have new := holds.new
  have cur := holds.cur
  constructor
  · intro recalls
    by_contra many
    have first := recalls.back 1
    simp only [Hist.calls, holds.stops many, List.range_one, List.map_cons, List.map_nil,
      if_pos (show 0 < 256 by omega)] at first
    rw [List.getElem?_eq_getElem (by rw [List.length_reverse]; omega)] at first
    cases first
  · intro few
    have here : s = { s with cur := h.length } := by
      have place : s.cur = h.length := by omega
      rw [← place]
    constructor
    · intro m
      rw [here, last_answers holds few m h.length (Nat.le_refl _)]
      apply List.map_congr_left
      intro k _
      by_cases less : k < h.length
      · rw [if_pos less, if_pos (by omega), List.getElem?_reverse less]
      · rw [if_neg less]
        split
        · rw [List.getElem?_eq_none (by rw [List.length_reverse]; omega)]
        · rfl
    · intro m positive bound j
      have moved : (Hist.calls Hist.getLastCmd m s).2 = { s with cur := h.length - m } := by
        conv_lhs => rw [here]
        rw [last_answers holds few m h.length (Nat.le_refl _)]
      rw [moved, next_answers holds few j (h.length - m) (by omega)]
      apply List.map_congr_left
      intro i _
      by_cases less : i + 1 < m
      · rw [if_pos less, if_pos (by omega), List.getElem?_reverse (by omega)]
        congr 1
        omega
      · rw [if_neg less, if_neg (by omega)]

theorem Holds.prefix_stops (holds : Holds s h) (many : ¬h.length < 256) (pfx : Str) :
    s.findHistByPrefix pfx = some none := by
  have old := holds.old
  rw [if_neg many] at old
  apply loop_leave (by omega)
  rw [Hist.prefixPass, if_pos (by rw [holds.new, old])]

theorem Holds.prefix_read (holds : Holds s h) (few : h.length < 256) (pfx : Str) :
    s.findHistByPrefix pfx = some (h.reverse.find? fun cmd => strncmpZero cmd pfx pfx.length) := by
  have place : s.new = h.length := holds.new.trans (Nat.mod_eq_of_lt few)
  rw [Hist.findHistByPrefix, place, prefix_answers holds few pfx (Nat.le_refl _)
    (by unfold histMaxNum; omega), List.take_length]

theorem Holds.prefix_found (holds : Holds s h) (few : h.length < 256) {pfx : Str} (some' : pfx ≠ []) :
    s.findHistByPrefix pfx = some (h.reverse.find? pfx.isPrefixOf) := by
  rw [holds.prefix_read few]
  simp only [strncmpZero_begins some']

theorem Holds.prefix_empty (holds : Holds s h) (few : h.length < 256) (words : [] ∉ h) :
    s.findHistByPrefix [] = some none := by
  rw [holds.prefix_read few, Option.some.injEq, List.find?_eq_none]
  intro cmd member
  rw [strncmpZero_empty, List.isEmpty_iff]
  rintro rfl
  exact words (List.mem_reverse.mp member)

theorem byPrefix_iff (holds : Holds s h) (words : [] ∉ h) (pfx : Str) :
    ByPrefix s h pfx ↔
      (h.length < 256 ∧ pfx ≠ []) ∨ (h.drop (h.length - 256)).reverse.find? pfx.isPrefixOf = none := by
  unfold ByPrefix
  by_cases few : h.length < 256
  · by_cases some' : pfx = []
    · subst some'
      rw [holds.prefix_empty few words, Option.some.injEq]
      simp only [ne_eq, not_true_eq_false, and_false, false_or]
      exact eq_comm
    · rw [holds.prefix_found few some', Nat.sub_eq_zero_of_le (Nat.le_of_lt few), List.drop_zero]
      simp [few, some']
  · rw [holds.prefix_stops few, Option.some.injEq]
    simp only [few, false_and, false_or]
    exact eq_comm

/-- A number from before the first command, or one that is still behind the table with its size taken off. -/
def BesideTable (h : List Str) (n : Int) : Prop :=
  (n ≤ 0 ∧ (h.length : Int) - 256 < n) ∨ (512 < n ∧ (h.length : Int) - 256 < n ∧ n ≤ h.length)

instance (h : List Str) (n : Int) : Decidable (BesideTable h n) := inferInstanceAs (Decidable (_ ∨ _))

def numbered (h : List Str) (n : Int) : Option Str :=
  if 1 ≤ n ∧ (h.length : Int) - 256 < n ∧ n ≤ h.length then h[n.toNat - 1]? else none

theorem Holds.by_num (holds : Holds s h) (short : h.length < 2^31) (n : Int) :
    s.findHistByNum n = if BesideTable h n then none else some (numbered h n) := by
  have no : s.no = h.length := by
    rw [holds.no, BitVec.toInt_ofInt, Int.bmod_eq_of_le] <;> omega
  have call : s.findHistByNum n =
      if n > (h.length : Int) ∨ n ≤ (h.length : Int) - 256 then some none
      else if 0 ≤ (if n > 256 then n - 1 - 256 else n - 1) ∧
        (if n > 256 then n - 1 - 256 else n - 1) < 256 then
        some ((s.tab (if n > 256 then n - 1 - 256 else n - 1).toNat).map Stored.string)
      else none := by
    rw [← no]
    rfl
  rw [call, numbered]
  by_cases other : n > (h.length : Int) ∨ n ≤ (h.length : Int) - 256
  · rw [if_pos other, if_neg (by unfold BesideTable; omega), if_neg (by omega)]
  · rw [if_neg other]
    by_cases beside : BesideTable h n
    · rw [if_pos beside, if_neg]
      unfold BesideTable at beside
      split <;> omega
    · rw [if_neg beside]
      unfold BesideTable at beside
      have held := holds.held (n.toNat - 1) (by omega) (by omega)
      rw [if_pos (show 1 ≤ n ∧ (h.length : Int) - 256 < n ∧ n ≤ h.length by omega), ← held]
      by_cases second : n > 256
      · have place : (n - 1 - 256).toNat = (n.toNat - 1) % 256 := by omega
        simp only [if_pos second]
        rw [if_pos (by omega), place]
      · have place : (n - 1).toNat = (n.toNat - 1) % 256 := by omega
        simp only [if_neg second]
        rw [if_pos (by omega), place]

theorem byNum_iff (holds : Holds s h) (short : h.length < 2^31) (n : Int) :
    ByNum s h n ↔ ¬ (n ≤ 0 ∧ (h.length : Int) - 256 < n) ∧
      ¬ (512 < n ∧ (h.length : Int) - 256 < n ∧ n ≤ h.length) := by
  rw [ByNum, holds.by_num short n, ← not_or]
  by_cases beside : BesideTable h n
  · rw [if_pos beside]
    exact ⟨nofun, absurd beside⟩
  · rw [if_neg beside]
    exact ⟨fun _ => beside, fun _ => rfl⟩

/-- Whatever has been stored behind the blocks, there is a command in the table as soon as one is
    kept, and its block ends with it. -/
structure Begun (s : Hist) (h : List Str) : Prop where
  room : ∀ i st, s.tab i = some st → st.room = st.text.length
  unused : h = [] → s.no = 0 ∧ ∀ i, s.tab i = none
  used : h ≠ [] → ∃ i st, s.tab i = some st

theorem keep_ne_nil (some' : h ≠ []) (cmd : Str) : keep h cmd ≠ [] := by
  unfold keep
  split_ifs <;> simp [some']

theorem Begun.add (begun : Begun s h) (cmd : Str) : Begun (s.addHistCmd cmd) (keep h cmd) := by
  by_cases blank : strempty cmd
  · rw [Hist.addHistCmd, keep, if_pos blank, if_pos blank]
    exact begun
  rw [Hist.addHistCmd, if_neg blank]
  have nonempty : keep h cmd ≠ [] := by
    by_cases first : h = []
    · simp [keep, first, blank]
    · exact keep_ne_nil first cmd
  by_cases again : (s.tab (histLast s.new)).map Stored.string = some cmd
  · rw [if_pos again]
    obtain ⟨st, there, -⟩ := Option.map_eq_some_iff.mp again
    exact ⟨begun.room, fun empty => absurd empty nonempty, fun _ => ⟨_, st, there⟩⟩
  · rw [if_neg again]
    refine ⟨fun i st found => ?_, fun empty => absurd empty nonempty, fun _ =>
      ⟨s.new, _, Function.update_self ..⟩⟩
    dsimp only at found
    by_cases here : i = s.new
    · rw [here, Function.update_self, Option.some.injEq] at found
      rw [← found]
    · rw [Function.update_of_ne here] at found
      exact begun.room i st found

theorem Begun.store (begun : Begun s h) (i : Nat) (behind : Str) : Begun (s.step (.store i behind)) h := by
  have stored : ∀ j, (s.step (.store i behind)).tab j =
      if j = i then (s.tab i).map fun st => { st with behind := behind } else s.tab j := by
    intro j
    rw [Hist.step]
    exact Function.update_apply ..
  constructor
  · intro j st found
    rw [stored] at found
    split at found
    · obtain ⟨st', there, rfl⟩ := Option.map_eq_some_iff.mp found
      exact begun.room i st' there
    · exact begun.room j st found
  · intro empty
    obtain ⟨no, none⟩ := begun.unused empty
    refine ⟨no, fun j => ?_⟩
    rw [stored, none, none]
    split <;> rfl
  · intro some'
    obtain ⟨j, st, there⟩ := begun.used some'
    by_cases here : j = i
    · exact ⟨i, { st with behind := behind }, by rw [stored, if_pos rfl, ← here, there]; rfl⟩
    · exact ⟨j, st, by rw [stored, if_neg here, there]⟩

theorem Begun.lost (begun : Begun s h) : ¬ ((∀ n, ByNum s h n) ∧ Inside s) := by
  rintro ⟨numbers, inside⟩
  by_cases empty : h = []
  · have zero := numbers 0
    rw [ByNum, Hist.findHistByNum, (begun.unused empty).1] at zero
    cases zero
  · obtain ⟨i, st, there⟩ := begun.used empty
    have fits := inside i st there
    rw [begun.room i st there, Stored.string, List.length_append] at fits
    omega

theorem inside_iff (begun : Begun s h) : Inside s ↔ h = [] := by
  constructor
  · intro inside
    by_contra some'
    obtain ⟨i, st, there⟩ := begun.used some'
    have fits := inside i st there
    rw [begun.room i st there, Stored.string, List.length_append] at fits
    omega
  · intro empty i st there
    rw [(begun.unused empty).2 i] at there
    cases there

end

def ran (events : List Event) : Hist := events.foldl Hist.step Hist.init

def added : List Event → List Str
  | [] => []
  | .add cmd :: rest => cmd :: added rest
  | .store _ _ :: rest => added rest

def Undisturbed (events : List Event) : Prop := ∀ i behind, Event.store i behind ∉ events

theorem ran_begun (events : List Event) : Begun (ran events) (kept (added events)) := by
  have run : ∀ {s h}, Begun s h → Begun (events.foldl Hist.step s) ((added events).foldl keep h) := by
    induction events with
    | nil => exact id
    | cons event rest ih =>
      intro s h begun
      cases event with
      | add cmd => exact ih (begun.add cmd)
      | store i behind => exact ih (begun.store i behind)
  exact run ⟨nofun, fun _ => ⟨rfl, fun _ => rfl⟩, fun some' => absurd rfl some'⟩

theorem ran_undisturbed {events : List Event} (alone : Undisturbed events) :
    ran events = typed (added events) := by
  have run : ∀ s, events.foldl Hist.step s = (added events).foldl Hist.addHistCmd s := by
    induction events with
    | nil => exact fun _ => rfl
    | cons event rest ih =>
      intro s
      have later := ih fun i behind member => alone i behind (List.mem_cons_of_mem _ member)
      cases event with
      | add cmd => exact later _
      | store i behind => exact absurd List.mem_cons_self (alone i behind)
  exact run Hist.init

theorem kept_words (cmds : List Str) : [] ∉ kept cmds := fun member => absurd (kept_mem member).2 (by decide)

/-- All of it never holds; what does is recall, prefixes and numbers, each under a condition of its own. -/
theorem history_answers_iff (events : List Event) :
    ¬ (Recalls (ran events) (kept (added events)) ∧ (∀ pfx, ByPrefix (ran events) (kept (added events)) pfx) ∧
        (∀ n, ByNum (ran events) (kept (added events)) n) ∧ Inside (ran events)) ∧
      (Inside (ran events) ↔ kept (added events) = []) ∧
      (Undisturbed events →
        (Recalls (ran events) (kept (added events)) ↔ (kept (added events)).length < 256) ∧
        (∀ pfx, ByPrefix (ran events) (kept (added events)) pfx ↔
          ((kept (added events)).length < 256 ∧ pfx ≠ []) ∨
          ((kept (added events)).drop ((kept (added events)).length - 256)).reverse.find?
            pfx.isPrefixOf = none) ∧
        ((kept (added events)).length < 2^31 → ∀ n, ByNum (ran events) (kept (added events)) n ↔
          ¬ (n ≤ 0 ∧ ((kept (added events)).length : Int) - 256 < n) ∧
            ¬ (512 < n ∧ ((kept (added events)).length : Int) - 256 < n ∧
              n ≤ (kept (added events)).length))) := by
  have begun := ran_begun events
  refine ⟨fun all => begun.lost all.2.2, inside_iff begun, fun alone => ?_⟩
  rw [ran_undisturbed alone]
  have holds := typed_holds (added events)
  exact ⟨recalls_iff holds, byPrefix_iff holds (kept_words _), byNum_iff holds⟩

theorem ls_number_one : ByNum (ran [.add [108, 115]]) (kept [[108, 115]]) 1 :=
  (((history_answers_iff [.add [108, 115]]).2.2 (by simp [Undisturbed])).2.2 (by decide) 1).mpr (by decide)

/-- One command: its terminator lies behind its block, number zero is looked up before the table,
    nothing starts with nothing; and what is stored at the terminator is read with the command. -/
theorem ls_outside : ¬ Inside (ran [.add [108, 115]]) ∧ (ran [.add [108, 115]]).findHistByNum 0 = none ∧
    (ran [.add [108, 115]]).findHistByPrefix [] = some none ∧
    (ran [.add [108, 115], .store 0 [8]]).findHistByNum 1 = some (some [108, 115, 8]) := by
  refine ⟨fun inside => ?_, by decide, by decide, by decide⟩
  have fits := inside 0 ⟨[108, 115], 2, []⟩ (by decide)
  exact absurd fits (by decide)

end Embryo.Shell
