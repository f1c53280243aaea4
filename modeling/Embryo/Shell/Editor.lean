import Embryo.Shell.History
import Embryo.Machine.Runs

namespace Embryo.Shell

open Embryo.Machine

def maxLineSize : Nat := 256

def PREV : UInt8 := 16

def NEXT : UInt8 := 14

def FORW : UInt8 := 6

def BACK : UInt8 := 2

def BEGIN : UInt8 := 1

def END : UInt8 := 5

def DELETE : UInt8 := 4

def DELLINE : UInt8 := 11

inductive EscState where
  | idle
  | haveEsc
  | haveLb
deriving DecidableEq

def escToCtl (c : UInt8) : UInt8 := [PREV, NEXT, FORW, BACK, 69, END, 71, BEGIN].getD (c.toNat - 65) 0

def isprint (c : UInt8) : Bool := 32 ≤ c && c < 127

namespace Hist

def posIsLatest (s : Hist) : Bool := histNext s.cur = s.new

def posIsNew (s : Hist) : Bool := s.cur = s.new

def posSetNew (s : Hist) : Hist := { s with cur := s.new }

end Hist

/-- What `get_line` works on, with all that it has echoed. There is nothing in `bak` before a line
    is put there. -/
structure Console where
  buf : Str
  cursor : Nat
  bak : Option Str
  hist : Hist
  esc : EscState
  entered : Bool
  out : Str

namespace Console

def puts (s : Console) (text : Str) : Console := { s with out := s.out ++ text }

def putsCur (s : Console) (text : Str) : Console :=
  { s with cursor := s.cursor + text.length, out := s.out ++ text }

def left : Nat → Console → Nat × Console
  | 0, s => (0, s)
  | n + 1, s =>
    if s.cursor > 0 then
      let (i, s) := left n { s with cursor := s.cursor - 1, out := s.out ++ [8] }
      (i + 1, s)
    else (0, s)

def right : Nat → Console → Nat × Console
  | 0, s => (0, s)
  | n + 1, s =>
    if s.cursor < s.buf.length then
      let (i, s) := right n { s with cursor := s.cursor + 1, out := s.out ++ [s.buf.getD s.cursor 0] }
      (i + 1, s)
    else (0, s)

/-- The string at `buf + cursor`, where the cursor is not behind the terminator. -/
def rest (s : Console) : Option Str := if s.cursor ≤ s.buf.length then some (s.buf.drop s.cursor) else none

def setRest (s : Console) (rest : Str) : Option Console :=
  if s.cursor + rest.length < maxLineSize then some { s with buf := s.buf.take s.cursor ++ rest } else none

def wipe (s : Console) : Console :=
  let s := (s.right (s.buf.length - s.cursor)).2
  { (s.puts (List.replicate s.buf.length [8, 32, 8]).flatten) with cursor := 0 }

def replace (s : Console) (text : Str) : Option Console :=
  if text.length < maxLineSize then some ({ s with buf := text }.putsCur text) else none

/-- The character at the cursor is deleted, and what follows is echoed with a blank in the place of
    the last. -/
def deleteAt (s : Console) : Option Console := do
  let rest ← s.rest
  let s ← s.setRest rest.tail
  let oc := s.cursor
  let s := (s.putsCur (s.buf.drop s.cursor)).putsCur [32]
  return (s.left ((s.buf.drop oc).length + 1)).2

def prev (s : Console) : Option Console :=
  match s.hist.getLastCmd with
  | (none, hist) => some { s with hist := hist }
  | (some cmd, hist) =>
    let s := { s with hist := hist }.wipe
    let s := if s.hist.posIsLatest then { s with bak := some s.buf } else s
    s.replace cmd

def next (s : Console) : Option Console :=
  if s.hist.posIsNew then some s
  else
    let s := s.wipe
    match s.hist.getNextCmd with
    | (some cmd, hist) => { s with hist := hist }.replace cmd
    | (none, hist) =>
      let s := { s with hist := hist }
      if s.hist.posIsLatest then
        match s.bak with
        | none => none
        | some bak => ({ s with hist := s.hist.posSetNew } : Console).replace bak
      else some (s.putsCur s.buf)

def delline (s : Console) : Option Console := do
  let rest ← s.rest
  let n := rest.length
  let s ← s.setRest []
  let s := (fun s : Console => s.putsCur [32])^[n] s
  return (s.left n).2

def insert (s : Console) (c : UInt8) : Option Console :=
  if s.buf.length < maxLineSize - 1 then do
    let rest ← s.rest
    let s ← s.setRest (c :: rest)
    let oc := s.cursor + 1
    let s := s.putsCur (s.buf.drop s.cursor)
    return (s.left (s.buf.drop oc).length).2
  else some s

def key (usehist : Bool) (s : Console) (c : UInt8) : Option Console :=
  if c = PREV ∧ usehist then s.prev
  else if c = NEXT ∧ usehist then s.next
  else if c = FORW then some (s.right 1).2
  else if c = BACK then some (s.left 1).2
  else if c = BEGIN then some (s.left s.cursor).2
  else if c = END then some (s.right (s.buf.length - s.cursor)).2
  else if c = DELETE then s.deleteAt
  else if c = DELLINE then s.delline
  else if c = 8 ∨ c = 127 then
    let (i, s) := s.left 1
    if i = 1 then s.deleteAt else some s
  else if c = 10 ∨ c = 13 then some { (s.puts [c]) with entered := true, hist := s.hist.posSetNew }
  else if isprint c then s.insert c
  else some (s.puts [7])

/-- The `switch` over the state of an escape sequence, and the character that it leaves for the keys. -/
def readEsc (esc : EscState) (c : UInt8) : EscState × Option UInt8 :=
  match esc with
  | .idle => if c = 27 then (.haveEsc, none) else (.idle, some c)
  | .haveEsc => if c = 91 then (.haveLb, none) else (.idle, some c)
  | .haveLb => (.idle, some (if 65 ≤ c ∧ c ≤ 72 then escToCtl c else c))

/-- A character that is read. After the line has been entered `get_line` reads no more. -/
def getc (usehist : Bool) (s : Console) (c : UInt8) : Option Console :=
  if s.entered then some s
  else
    match readEsc s.esc c with
    | (esc, none) => some { s with esc := esc }
    | (esc, some c) => { s with esc := esc }.key usehist c

end Console

inductive Key where
  | prev
  | next
  | forw
  | back
  | begin
  | end'
  | delete
  | delline
  | rubout
  | enter (c : UInt8)
  | char (c : UInt8)
  | other
deriving DecidableEq

def Key.of (c : UInt8) : Key :=
  match c.toNat with
  | 1 => begin
  | 2 => back
  | 4 => delete
  | 5 => end'
  | 6 => forw
  | 8 => rubout
  | 10 => enter c
  | 11 => delline
  | 13 => enter c
  | 14 => next
  | 16 => prev
  | 127 => rubout
  | n => if 32 ≤ n ∧ n < 127 then char c else other

def Key.escaped (c : UInt8) : Key :=
  match c.toNat with
  | 65 => prev
  | 66 => next
  | 67 => forw
  | 68 => back
  | 70 => end'
  | 72 => begin
  | _ => of c

/-- A line with a cursor in it, the line that was being typed when a command took its place, and
    which command that is: the one behind the last is the line being typed itself. -/
structure Editor where
  line : Str
  cursor : Nat
  typing : Str
  pos : Nat
  esc : EscState
  entered : Bool

namespace Editor

def press (cmds : List Str) (usehist : Bool) (e : Editor) : Key → Editor
  | .prev =>
    if usehist ∧ 0 < e.pos then
      let line := cmds.getD (e.pos - 1) []
      { e with
        line := line, cursor := line.length, typing := if e.pos = cmds.length then e.line
          else e.typing, pos := e.pos - 1 }
    else e
  | .next =>
    if usehist ∧ e.pos < cmds.length then
      let line := cmds.getD (e.pos + 1) e.typing
      { e with line := line, cursor := line.length, pos := e.pos + 1 }
    else e
  | .forw => { e with cursor := min (e.cursor + 1) e.line.length }
  | .back => { e with cursor := e.cursor - 1 }
  | .begin => { e with cursor := 0 }
  | .end' => { e with cursor := e.line.length }
  | .delete => { e with line := e.line.eraseIdx e.cursor }
  | .delline => { e with line := e.line.take e.cursor }
  | .rubout =>
    if 0 < e.cursor then { e with line := e.line.eraseIdx (e.cursor - 1), cursor := e.cursor - 1 } else e
  | .enter _ => { e with entered := true }
  | .char c =>
    if e.line.length < maxLineSize - 1 then
      { e with line := e.line.insertIdx e.cursor c, cursor := e.cursor + 1 } else e
  | .other => e

def read (esc : EscState) (c : UInt8) : EscState × Option Key :=
  match esc with
  | .idle => if c = 27 then (.haveEsc, none) else (.idle, some (.of c))
  | .haveEsc => if c = 91 then (.haveLb, none) else (.idle, some (.of c))
  | .haveLb => (.idle, some (.escaped c))

def getc (cmds : List Str) (usehist : Bool) (e : Editor) (c : UInt8) : Editor :=
  if e.entered then e
  else
    match read e.esc c with
    | (esc, none) => { e with esc := esc }
    | (esc, some key) => { e with esc := esc }.press cmds usehist key

end Editor

def recent (cmds : List Str) : List Str := (kept cmds).drop ((kept cmds).length - 256)

def bothRead (cmds : List Str) (usehist : Bool) (state : Console × Editor) (c : UInt8) :
    Option (Console × Editor) :=
  (state.1.getc usehist c).map (·, state.2.getc (recent cmds) usehist c)

/-- The cursor is in the line, the line in the buffer, and both are where the plain editor has them. -/
structure Same (state : Console × Editor) : Prop where
  inside : state.1.cursor ≤ state.1.buf.length
  room : state.1.buf.length < maxLineSize
  line : state.1.buf = state.2.line
  cursor : state.1.cursor = state.2.cursor

def atStart (cmds : List Str) (buf : Str) : Console × Editor :=
  (⟨buf, 0, none, typed cmds, .idle, false, []⟩, ⟨buf, 0, [], (recent cmds).length, .idle, false⟩)

def PrevFits (cmds : List Str) (usehist : Bool) (state : Console × Editor) (c : UInt8) : Prop :=
  usehist = true → state.1.entered = false → 256 ≤ (kept cmds).length →
    (Editor.read state.2.esc c).2 ≠ some .prev

section

variable {s : Console} {n : Nat}

theorem left_eq (n : Nat) (s : Console) :
    ∃ out, s.left n = (min n s.cursor, { s with cursor := s.cursor - n, out := out }) := by
  induction n generalizing s with
  | zero => exact ⟨s.out, by rw [Console.left, Nat.zero_min]; rfl⟩
  | succ n ih =>
    by_cases more : s.cursor > 0
    · obtain ⟨out, moved⟩ := ih { s with cursor := s.cursor - 1, out := s.out ++ [8] }
      refine ⟨out, ?_⟩
      rw [Console.left, if_pos more, moved]
      simp only [Prod.mk.injEq, Console.mk.injEq, true_and, and_true]
      omega
    · refine ⟨s.out, ?_⟩
      have first : s.cursor = 0 := by omega
      rw [Console.left, if_neg more, first, Nat.min_zero, Nat.zero_sub, ← first]

theorem right_eq (n : Nat) (inside : s.cursor ≤ s.buf.length) :
    ∃ out, s.right n = (min n (s.buf.length - s.cursor),
      { s with cursor := min (s.cursor + n) s.buf.length, out := out }) := by
  induction n generalizing s with
  | zero => exact ⟨s.out, by rw [Console.right, Nat.zero_min, Nat.add_zero, Nat.min_eq_left inside]⟩
  | succ n ih =>
    by_cases more : s.cursor < s.buf.length
    · obtain ⟨out, moved⟩ :=
        @ih { s with cursor := s.cursor + 1, out := s.out ++ [s.buf.getD s.cursor 0] } more
      refine ⟨out, ?_⟩
      rw [Console.right, if_pos more, moved]
      simp only [Prod.mk.injEq, Console.mk.injEq, true_and, and_true]
      omega
    · refine ⟨s.out, ?_⟩
      have last : s.cursor = s.buf.length := by omega
      rw [Console.right, if_neg more, last, Nat.sub_self, Nat.min_zero,
        Nat.min_eq_right (Nat.le_add_right _ _), ← last]

theorem wipe_eq (inside : s.cursor ≤ s.buf.length) : ∃ out, s.wipe = { s with cursor := 0, out := out } := by
  obtain ⟨out, moved⟩ := right_eq (s.buf.length - s.cursor) inside
  exact ⟨_, by simp only [Console.wipe, moved]; rfl⟩

theorem rest_eq (inside : s.cursor ≤ s.buf.length) : s.rest = some (s.buf.drop s.cursor) := if_pos inside

theorem setRest_eq {rest : Str} (room : s.cursor + rest.length < maxLineSize) :
    s.setRest rest = some { s with buf := s.buf.take s.cursor ++ rest } := if_pos room

theorem deleteAt_eq (inside : s.cursor ≤ s.buf.length) (room : s.buf.length < maxLineSize) :
    ∃ out, s.deleteAt = some { s with buf := s.buf.eraseIdx s.cursor, out := out } := by
  have erased : s.buf.eraseIdx s.cursor = s.buf.take s.cursor ++ (s.buf.drop s.cursor).tail := by
    rw [List.eraseIdx_eq_take_drop_succ, List.tail_drop]
  have fits : s.cursor + (s.buf.drop s.cursor).tail.length < maxLineSize := by
    rw [List.length_tail, List.length_drop]
    omega
  simp only [Console.deleteAt, rest_eq inside, Option.bind_eq_bind, Option.bind_some,
    setRest_eq fits, ← erased, Console.putsCur]
  obtain ⟨out, moved⟩ := left_eq ((s.buf.eraseIdx s.cursor).drop s.cursor).length.succ
    { s with
      buf := s.buf.eraseIdx s.cursor
      cursor := s.cursor + ((s.buf.eraseIdx s.cursor).drop s.cursor).length + [(32 : UInt8)].length
      out := s.out ++ (s.buf.eraseIdx s.cursor).drop s.cursor ++ [32] }
  refine ⟨out, ?_⟩
  rw [moved]
  simp only [List.length_singleton, Nat.succ_eq_add_one, Nat.add_assoc, Nat.add_sub_cancel]
  rfl

theorem blanks_eq (n : Nat) (s : Console) :
    ∃ out, (fun s : Console => s.putsCur [32])^[n] s = { s with cursor := s.cursor + n, out := out } := by
  induction n with
  | zero => exact ⟨s.out, rfl⟩
  | succ n ih =>
    obtain ⟨out, moved⟩ := ih
    exact ⟨out ++ [32], by rw [Function.iterate_succ_apply', moved]; rfl⟩

theorem delline_eq (inside : s.cursor ≤ s.buf.length) (room : s.buf.length < maxLineSize) :
    ∃ out, s.delline = some { s with buf := s.buf.take s.cursor, out := out } := by
  have cut : s.setRest [] = some { s with buf := s.buf.take s.cursor } := by
    rw [setRest_eq (by rw [List.length_nil]; omega), List.append_nil]
  obtain ⟨out, moved⟩ := blanks_eq (s.buf.drop s.cursor).length { s with buf := s.buf.take s.cursor }
  obtain ⟨out', back⟩ := left_eq (s.buf.drop s.cursor).length
    { s with buf := s.buf.take s.cursor, cursor := s.cursor + (s.buf.drop s.cursor).length, out := out }
  refine ⟨out', ?_⟩
  simp only [Console.delline, rest_eq inside, Option.bind_eq_bind, Option.bind_some, cut, moved,
    back, Nat.add_sub_cancel]
  rfl

theorem insertIdx_eq {α : Type} (a : α) {l : List α} {i : Nat} (inside : i ≤ l.length) :
    l.insertIdx i a = l.take i ++ a :: l.drop i := by
  induction l generalizing i with
  | nil =>
    obtain rfl : i = 0 := Nat.le_zero.mp inside
    rfl
  | cons b l ih =>
    cases i with
    | zero => rfl
    | succ i => rw [List.insertIdx_succ_cons, ih (Nat.le_of_succ_le_succ inside)]; rfl

theorem insert_eq (c : UInt8) (inside : s.cursor ≤ s.buf.length) (room : s.buf.length < maxLineSize - 1) :
    ∃ out, s.insert c = some { s with
      buf := s.buf.insertIdx s.cursor c, cursor := s.cursor + 1, out := out } := by
  have put : s.setRest (c :: s.buf.drop s.cursor) = some { s with buf := s.buf.insertIdx s.cursor c } := by
    rw [setRest_eq (by rw [List.length_cons, List.length_drop]; omega), insertIdx_eq c inside]
  have whole : ((s.buf.insertIdx s.cursor c).drop s.cursor).length =
      ((s.buf.insertIdx s.cursor c).drop (s.cursor + 1)).length + 1 := by
    rw [List.length_drop, List.length_drop, List.length_insertIdx_of_le_length inside]
    omega
  obtain ⟨out, back⟩ := left_eq ((s.buf.insertIdx s.cursor c).drop (s.cursor + 1)).length
    { s with
      buf := s.buf.insertIdx s.cursor c
      cursor := s.cursor + ((s.buf.insertIdx s.cursor c).drop s.cursor).length
      out := s.out ++ (s.buf.insertIdx s.cursor c).drop s.cursor }
  refine ⟨out, ?_⟩
  have one : s.cursor + ((s.buf.insertIdx s.cursor c).drop
    s.cursor).length - ((s.buf.insertIdx s.cursor c).drop (s.cursor + 1)).length =
      s.cursor + 1 := by omega
  simp only [Console.insert, if_pos room, rest_eq inside, Option.bind_eq_bind, Option.bind_some,
    put, Console.putsCur, back, one]
  rfl

end

def Console.press (usehist : Bool) (s : Console) : Key → Option Console
  | .prev => if usehist then s.prev else some (s.puts [7])
  | .next => if usehist then s.next else some (s.puts [7])
  | .forw => some (s.right 1).2
  | .back => some (s.left 1).2
  | .begin => some (s.left s.cursor).2
  | .end' => some (s.right (s.buf.length - s.cursor)).2
  | .delete => s.deleteAt
  | .delline => s.delline
  | .rubout => if (s.left 1).1 = 1 then (s.left 1).2.deleteAt else some (s.left 1).2
  | .enter c => some { (s.puts [c]) with entered := true, hist := s.hist.posSetNew }
  | .char c => s.insert c
  | .other => some (s.puts [7])

theorem isprint_iff (c : UInt8) : isprint c = true ↔ 32 ≤ c.toNat ∧ c.toNat < 127 := by
  rw [isprint, Bool.and_eq_true, decide_eq_true_iff, decide_eq_true_iff, UInt8.le_iff_toNat_le,
    UInt8.lt_iff_toNat_lt]
  rfl

theorem key_eq (usehist : Bool) (s : Console) (c : UInt8) : s.key usehist c = s.press usehist (Key.of c) := by
  have only : ∀ {n : Nat}, c.toNat = n → c = UInt8.ofNat n := fun same => by rw [← same, UInt8.ofNat_toNat]
  unfold Key.of
  split
  case h_13 begin back delete end' forw bs lf delline cr next prev del =>
    have plain : ∀ code : UInt8, (c.toNat = code.toNat → False) → c ≠ code :=
      fun _ other same => other (congrArg _ same)
    rw [Console.key, if_neg (not_and.mpr fun same => absurd same (plain PREV prev)),
      if_neg (not_and.mpr fun same => absurd same (plain NEXT next)), if_neg (plain FORW forw),
        if_neg (plain BACK back),
      if_neg (plain BEGIN begin), if_neg (plain END end'), if_neg (plain DELETE delete),
        if_neg (plain DELLINE delline),
      if_neg (not_or.mpr ⟨plain 8 bs, plain 127 del⟩), if_neg (not_or.mpr ⟨plain 10 lf, plain 13 cr⟩)]
    by_cases printable : 32 ≤ c.toNat ∧ c.toNat < 127
    · rw [if_pos ((isprint_iff c).mpr printable), if_pos printable, Console.press]
    · rw [if_neg fun wrong => printable ((isprint_iff c).mp wrong), if_neg printable, Console.press]
  case h_10 code =>
    cases only code
    cases usehist <;> rfl
  case h_11 code =>
    cases only code
    cases usehist <;> rfl
  all_goals
    rename_i code
    cases only code
    rfl

theorem read_eq (esc : EscState) (c : UInt8) :
    Editor.read esc c = ((Console.readEsc esc c).1, (Console.readEsc esc c).2.map Key.of) := by
  have arrows : ∀ n < 256, Key.escaped (UInt8.ofNat n) =
      Key.of (if 65 ≤ UInt8.ofNat n ∧ UInt8.ofNat n ≤ 72 then escToCtl (UInt8.ofNat n)
        else UInt8.ofNat n) := by decide +kernel
  cases esc with
  | idle => simp only [Editor.read, Console.readEsc]; split <;> rfl
  | haveEsc => simp only [Editor.read, Console.readEsc]; split <;> rfl
  | haveLb =>
    have same := arrows c.toNat c.toNat_lt
    rw [UInt8.ofNat_toNat] at same
    rw [Editor.read, Console.readEsc, same]
    rfl

def shownAt (cmds : List Str) (pos : Nat) : Hist := { typed cmds with cur := pos }

/-- The history is at a command of the plain editor. A full table stays at the newest position,
    where no key leads away from. -/
def At (cmds : List Str) (hist : Hist) (pos : Nat) : Prop :=
  ((kept cmds).length < 256 ∧ pos ≤ (kept cmds).length ∧ hist = shownAt cmds pos) ∨
    (256 ≤ (kept cmds).length ∧ pos = (recent cmds).length ∧ hist = typed cmds)

structure Tracks (cmds : List Str) (s : Console) (e : Editor) : Prop where
  same : e = ⟨s.buf, s.cursor, e.typing, e.pos, s.esc, s.entered⟩
  inside : s.cursor ≤ s.buf.length
  room : s.buf.length < maxLineSize
  place : s.entered = false → At cmds s.hist e.pos
  bak : s.entered = false → e.pos < (recent cmds).length → s.bak = some e.typing ∧
    e.typing.length < maxLineSize

section

variable {cmds : List Str} {s : Console} {e : Editor}

theorem recent_few (few : (kept cmds).length < 256) : recent cmds = kept cmds := by
  rw [recent, Nat.sub_eq_zero_of_le few.le, List.drop_zero]

theorem Tracks.edit (tracks : Tracks cmds s e) (buf : Str) (cursor : Nat) (out : Str)
    (inside : cursor ≤ buf.length)
    (room : buf.length < maxLineSize) {e' : Editor} (edited : e' = { e with line := buf, cursor := cursor }) :
    Tracks cmds { s with buf := buf, cursor := cursor, out := out } e' := by
  subst edited
  have same := tracks.same
  refine ⟨?_, inside, room, tracks.place, tracks.bak⟩
  rw [same]

theorem kept_short (short : ∀ cmd ∈ cmds, cmd.length < maxLineSize) :
    ∀ cmd ∈ kept cmds, cmd.length < maxLineSize :=
  fun cmd member => short cmd (kept_mem member).1

theorem replace_eq {text : Str} (start : s.cursor = 0) (fits : text.length < maxLineSize) :
    ∃ out, s.replace text = some { s with buf := text, cursor := text.length, out := out } := by
  refine ⟨s.out ++ text, ?_⟩
  rw [Console.replace, if_pos fits, Console.putsCur]
  simp only [start, Nat.zero_add]

section

variable {pos : Nat} (few : (kept cmds).length < 256)

include few

theorem shownAt_last (low : pos ≤ (kept cmds).length) :
    (shownAt cmds pos).getLastCmd = (if pos = 0 then none else (kept cmds)[pos - 1]?,
      shownAt cmds (pos - 1)) :=
  (typed_holds cmds).last_at few low

theorem shownAt_next (low : pos < (kept cmds).length) : (shownAt cmds pos).getNextCmd =
    ((kept cmds)[pos + 1]?, shownAt cmds (if pos + 1 = (kept cmds).length then pos else pos + 1)) :=
  (typed_holds cmds).next_at few low

theorem shownAt_new : (typed cmds).new = (kept cmds).length :=
  (typed_holds cmds).new.trans (Nat.mod_eq_of_lt few)

theorem shownAt_latest (low : pos < (kept cmds).length) :
    (shownAt cmds pos).posIsLatest = decide (pos + 1 = (kept cmds).length) := by
  have next : histNext pos = pos + 1 := by rw [histNext_eq (by omega), Nat.mod_eq_of_lt (by omega)]
  simp only [Hist.posIsLatest, shownAt, next, shownAt_new few]

end

theorem prev_tracks (short : ∀ cmd ∈ cmds, cmd.length < maxLineSize) (tracks : Tracks cmds s e)
    (reading : s.entered = false) (few : (kept cmds).length < 256) :
    ∃ s', s.prev = some s' ∧ Tracks cmds s' (e.press (recent cmds) true .prev) := by
  obtain ⟨line, cursor, typing, pos, esc, entered⟩ := e
  obtain ⟨rfl, rfl, -, -, rfl, rfl⟩ := Editor.mk.inj tracks.same
  obtain ⟨-, low, hist⟩ := (tracks.place reading).resolve_right fun full => absurd full.1 (by omega)
  rw [recent_few few, Console.prev, hist, shownAt_last few low]
  by_cases bottom : pos = 0
  · refine ⟨s, ?_, ?_⟩
    · rw [if_pos bottom, show pos - 1 = pos by omega]
      exact congrArg some (by rw [← hist])
    · rw [Editor.press, if_neg (by simp only; omega)]
      exact tracks
  · have below : pos - 1 < (kept cmds).length := by
      dsimp only at low
      omega
    obtain ⟨cmd, found⟩ : ∃ cmd, (kept cmds)[pos - 1]? = some cmd := ⟨_, List.getElem?_eq_getElem below⟩
    have fits := kept_short short cmd (List.mem_of_getElem? found)
    obtain ⟨out, wiped⟩ := wipe_eq (s := { s with hist := shownAt cmds (pos - 1) }) tracks.inside
    rw [if_neg bottom, found, Editor.press, if_pos ⟨rfl, Nat.pos_of_ne_zero bottom⟩]
    simp only [wiped, shownAt_latest few below, List.getD_eq_getElem?_getD, found, Option.getD_some]
    by_cases newest : pos = (kept cmds).length
    · have latest : pos - 1 + 1 = (kept cmds).length := by omega
      simp only [latest, decide_true, if_true, if_pos newest]
      obtain ⟨out', shown⟩ := replace_eq
        (s := { s with cursor := 0, bak := some s.buf, hist := shownAt cmds (pos - 1), out := out }) rfl fits
      exact ⟨_, shown, rfl, Nat.le_refl _, fits, fun _ => .inl ⟨few, Nat.le_of_lt below, rfl⟩,
        fun _ _ => ⟨rfl, tracks.room⟩⟩
    · have latest : ¬pos - 1 + 1 = (kept cmds).length := by omega
      simp only [latest, decide_false, Bool.false_eq_true, if_false, if_neg newest]
      have bak := tracks.bak reading (by rw [recent_few few]; dsimp only; omega)
      obtain ⟨out', shown⟩ :=
        replace_eq (s := { s with cursor := 0, hist := shownAt cmds (pos - 1), out := out }) rfl fits
      exact ⟨_, shown, rfl, Nat.le_refl _, fits, fun _ => .inl ⟨few, Nat.le_of_lt below, rfl⟩, fun _ _ => bak⟩

theorem next_tracks (short : ∀ cmd ∈ cmds, cmd.length < maxLineSize) (tracks : Tracks cmds s e)
    (reading : s.entered = false) :
    ∃ s', s.next = some s' ∧ Tracks cmds s' (e.press (recent cmds) true .next) := by
  obtain ⟨line, cursor, typing, pos, esc, entered⟩ := e
  obtain ⟨rfl, rfl, -, -, rfl, rfl⟩ := Editor.mk.inj tracks.same
  rcases tracks.place reading with ⟨few, low, hist⟩ | ⟨many, newest, hist⟩
  · dsimp only at low
    by_cases newest : pos = (kept cmds).length
    · refine ⟨s, ?_, ?_⟩
      · rw [Console.next, if_pos]
        rw [hist, Hist.posIsNew, decide_eq_true_iff]
        exact newest.trans (shownAt_new few).symm
      · rw [Editor.press, if_neg (by rw [recent_few few]; dsimp only; omega)]
        exact tracks
    · have below : pos < (kept cmds).length := by omega
      have onward : ¬s.hist.posIsNew = true := by
        rw [hist, Hist.posIsNew, decide_eq_true_iff]
        exact fun same => newest (same.trans (shownAt_new few))
      obtain ⟨out, wiped⟩ := wipe_eq tracks.inside
      rw [Console.next, if_neg onward, recent_few few, Editor.press, if_pos ⟨rfl, below⟩]
      simp only [wiped, hist, shownAt_next few below, List.getD_eq_getElem?_getD]
      have bak : s.bak = some typing ∧ typing.length < maxLineSize :=
        tracks.bak reading (by rw [recent_few few]; exact below)
      by_cases last : pos + 1 = (kept cmds).length
      · rw [List.getElem?_eq_none (by omega)]
        simp only [shownAt_latest few below, last, decide_true, if_true, bak.1, Option.getD_none]
        obtain ⟨out', shown⟩ := replace_eq
          (s :=
            { s with
              cursor := 0, bak := some typing, hist := (shownAt cmds pos).posSetNew, out := out }) rfl bak.2
        refine ⟨_, shown, rfl, Nat.le_refl _, bak.2, fun _ => .inl ⟨few, Nat.le_refl _, ?_⟩, fun _ high => ?_⟩
        · exact congrArg (shownAt cmds) (shownAt_new few)
        · rw [recent_few few] at high
          exact absurd high (Nat.lt_irrefl _)
      · obtain ⟨cmd, found⟩ : ∃ cmd, (kept cmds)[pos + 1]? = some cmd :=
          ⟨_, List.getElem?_eq_getElem (by omega)⟩
        have fits := kept_short short cmd (List.mem_of_getElem? found)
        simp only [found, if_neg last, Option.getD_some]
        obtain ⟨out', shown⟩ :=
          replace_eq (s := { s with cursor := 0, hist := shownAt cmds (pos + 1), out := out }) rfl fits
        exact ⟨_, shown, rfl, Nat.le_refl _, fits, fun _ => .inl ⟨few, below, rfl⟩, fun _ _ => bak⟩
  · refine ⟨s, ?_, ?_⟩
    · rw [Console.next, if_pos]
      rw [hist, Hist.posIsNew, decide_eq_true_iff]
      exact (typed_holds cmds).cur
    · rw [Editor.press, if_neg (by dsimp only at newest ⊢; omega)]
      exact tracks

theorem press_tracks (usehist : Bool) (short : ∀ cmd ∈ cmds, cmd.length < maxLineSize)
    (tracks : Tracks cmds s e) (reading : s.entered = false) (key : Key)
    (few : usehist = true → key = .prev → (kept cmds).length < 256) :
    ∃ s', s.press usehist key = some s' ∧ Tracks cmds s' (e.press (recent cmds) usehist key) := by
  have line : e.line = s.buf := congrArg Editor.line tracks.same
  have cursor : e.cursor = s.cursor := congrArg Editor.cursor tracks.same
  have inside := tracks.inside
  have room := tracks.room
  have beep : ∀ text, Tracks cmds (s.puts text) e := fun text =>
    tracks.edit s.buf s.cursor _ inside room (by rw [← line, ← cursor])
  cases key with
  | prev =>
    cases usehist with
    | true => exact prev_tracks short tracks reading (few rfl rfl)
    | false => exact ⟨_, rfl, beep [7]⟩
  | next =>
    cases usehist with
    | true => exact next_tracks short tracks reading
    | false => exact ⟨_, rfl, beep [7]⟩
  | forw =>
    obtain ⟨out, moved⟩ := right_eq 1 inside
    exact ⟨_, congrArg (fun moved : Nat × Console => some moved.2) moved,
      tracks.edit _ _ out (Nat.min_le_right _ _) room (by rw [Editor.press, line, cursor])⟩
  | back =>
    obtain ⟨out, moved⟩ := left_eq 1 s
    exact ⟨_, congrArg (fun moved : Nat × Console => some moved.2) moved,
      tracks.edit _ _ out ((Nat.sub_le _ _).trans inside) room (by rw [Editor.press, line, cursor])⟩
  | begin =>
    obtain ⟨out, moved⟩ := left_eq s.cursor s
    refine ⟨_, congrArg (fun moved : Nat × Console => some moved.2) moved,
      tracks.edit _ _ out ((Nat.sub_le _ _).trans inside) room ?_⟩
    rw [Editor.press, line, Nat.sub_self]
  | end' =>
    obtain ⟨out, moved⟩ := right_eq (s.buf.length - s.cursor) inside
    refine ⟨_, congrArg (fun moved : Nat × Console => some moved.2) moved,
      tracks.edit _ _ out (Nat.min_le_right _ _) room ?_⟩
    rw [Editor.press, line, Nat.add_sub_cancel' inside, Nat.min_self]
  | delete =>
    obtain ⟨out, done⟩ := deleteAt_eq inside room
    have length : (s.buf.eraseIdx s.cursor).length = _ := List.length_eraseIdx
    split at length
    all_goals exact ⟨_, done, tracks.edit _ _ out (by omega) (by omega) (by rw [Editor.press, line, cursor])⟩
  | delline =>
    obtain ⟨out, done⟩ := delline_eq inside room
    have length := List.length_take_of_le inside
    exact ⟨_, done, tracks.edit _ _ out (by omega) (by omega) (by rw [Editor.press, line, cursor])⟩
  | rubout =>
    obtain ⟨out, moved⟩ := left_eq 1 s
    simp only [Console.press, moved, Editor.press, line, cursor]
    by_cases first : s.cursor = 0
    · refine ⟨_, if_neg (by omega), ?_⟩
      rw [if_neg (by omega)]
      exact tracks.edit s.buf _ out (by omega) room (by rw [show s.cursor - 1 = e.cursor by omega, ← line])
    · rw [if_pos (show min 1 s.cursor = 1 by omega), if_pos (by omega)]
      obtain ⟨out', done⟩ := deleteAt_eq (s := { s with cursor := s.cursor - 1, out := out })
        ((Nat.sub_le _ _).trans inside) room
      have length := List.length_eraseIdx_of_lt (show s.cursor - 1 < s.buf.length by omega)
      exact ⟨_, done, tracks.edit _ _ out' (by simp only; omega) (by simp only; omega) rfl⟩
  | enter c =>
    exact ⟨_, rfl, by rw [Editor.press]; exact ⟨by rw [tracks.same]; rfl, inside, room, nofun, nofun⟩⟩
  | char c =>
    by_cases free : s.buf.length < maxLineSize - 1
    · obtain ⟨out, done⟩ := insert_eq c inside free
      have length := List.length_insertIdx_of_le_length inside c
      exact ⟨_, done, tracks.edit _ _ out (by omega) (by omega)
        (by rw [Editor.press, line, cursor, if_pos free])⟩
    · exact ⟨s, if_neg free, by rw [Editor.press, line, if_neg free]; exact tracks⟩
  | other => exact ⟨_, rfl, beep [7]⟩

end

theorem getc_tracks (cmds : List Str) (usehist : Bool)
    (short : ∀ cmd ∈ cmds, cmd.length < maxLineSize) {s : Console} {e : Editor}
    (tracks : Tracks cmds s e) (c : UInt8) (few : PrevFits cmds usehist (s, e) c) :
    ∃ s', s.getc usehist c = some s' ∧ Tracks cmds s' (e.getc (recent cmds) usehist c) := by
  have entered : e.entered = s.entered := congrArg Editor.entered tracks.same
  have esc : e.esc = s.esc := congrArg Editor.esc tracks.same
  rw [Console.getc, Editor.getc, entered, esc, read_eq]
  by_cases done : s.entered = true
  · rw [if_pos done, if_pos done]
    exact ⟨s, rfl, tracks⟩
  · rw [Bool.not_eq_true] at done
    rw [if_neg (by rw [done]; exact Bool.false_ne_true), if_neg (by rw [done]; exact Bool.false_ne_true)]
    have later : ∀ esc, Tracks cmds { s with esc := esc } { e with
        esc := esc, entered := s.entered } := fun esc =>
      ⟨by rw [tracks.same], tracks.inside, tracks.room, tracks.place, tracks.bak⟩
    have few' : usehist = true → 256 ≤ (kept cmds).length → (Editor.read s.esc c).2 ≠ some .prev :=
      fun hist many => esc ▸ few hist done many
    rw [read_eq] at few'
    rcases read : Console.readEsc s.esc c with ⟨esc', _ | c⟩
    · exact ⟨_, rfl, later esc'⟩
    · simp only [Option.map_some, key_eq]
      refine press_tracks usehist short (later esc') done (Key.of c) fun hist prev => ?_
      by_contra many
      exact few' hist (by omega) (by rw [read]; exact congrArg some prev)

theorem Tracks.here {cmds : List Str} {s : Console} {e : Editor} (tracks : Tracks cmds s e) : Same (s, e) :=
  ⟨tracks.inside, tracks.room, (congrArg Editor.line tracks.same).symm,
    (congrArg Editor.cursor tracks.same).symm⟩

theorem newest_at (cmds : List Str) : At cmds (typed cmds) (recent cmds).length := by
  by_cases full : 256 ≤ (kept cmds).length
  · exact .inr ⟨full, rfl, rfl⟩
  · have few : (kept cmds).length < 256 := by omega
    have newest : (kept cmds).length = (typed cmds).cur :=
      (shownAt_new few).symm.trans (typed_holds cmds).cur.symm
    refine .inl ⟨few, (congrArg List.length (recent_few few)).le, ?_⟩
    rw [shownAt, recent_few few, newest]

theorem atStart_tracks (cmds : List Str) {buf : Str} (room : buf.length < maxLineSize) :
    Tracks cmds (atStart cmds buf).1 (atStart cmds buf).2 := by
  have place := newest_at cmds
  unfold atStart
  generalize count : (recent cmds).length = n at place
  refine ⟨rfl, Nat.zero_le _, room, fun _ => place, ?_⟩
  intro _ (high : n < (recent cmds).length)
  omega

/-- As long as PREV is not pressed with a full table, every key does to the line what it does in the
    plain editor. -/
theorem editor_refines (cmds : List Str) (usehist : Bool) (buf : Str) (chars : List UInt8)
    (short : ∀ cmd ∈ cmds, cmd.length < maxLineSize) (room : buf.length < maxLineSize)
    (few : Each (bothRead cmds usehist) (PrevFits cmds usehist) (atStart cmds buf) chars) :
    Always (bothRead cmds usehist) Same (atStart cmds buf) chars := by
  have run : ∀ chars {s e}, Tracks cmds s e → Each (bothRead cmds usehist) (PrevFits cmds usehist)
    (s, e) chars →
      Always (bothRead cmds usehist) Same (s, e) chars := by
    intro chars s e tracks few
    induction chars generalizing s e with
    | nil => exact tracks.here
    | cons c chars ih =>
      obtain ⟨s', read, after⟩ := getc_tracks cmds usehist short tracks c few.1
      have both : bothRead cmds usehist (s, e) c = some (s', e.getc (recent cmds) usehist c) := by
        rw [bothRead, read]; rfl
      exact ⟨tracks.here, _, both, ih after (few.2 _ both)⟩
  exact run chars (atStart_tracks cmds room) few

theorem shows_ls : Always (bothRead [[108, 115]] true) Same (atStart [[108, 115]] []) [16, 14] :=
  editor_refines [[108, 115]] true [] [16, 14] (by decide) (by decide)
    ⟨fun _ _ many => absurd many (by decide), fun _ _ =>
      ⟨fun _ _ many => absurd many (by decide), fun _ _ => True.intro⟩⟩

def alternating (n : Nat) : List Str := (List.range n).map fun i => if i % 2 = 0 then [97] else [98]

theorem kept_alternating (n : Nat) : kept (alternating n) = alternating n := by
  induction n with
  | zero => rfl
  | succ n ih =>
    have grows : ∀ n, alternating (n + 1) = alternating n ++ [if n % 2 = 0 then [97] else [98]] := by
      intro n
      rw [alternating, List.range_succ, List.map_append]
      rfl
    have differs : (alternating n).getLast? ≠ some (if n % 2 = 0 then [97] else [98]) := by
      cases n with
      | zero => exact nofun
      | succ n =>
        rw [grows, List.getLast?_append, List.getLast?_singleton, Option.some_or]
        rcases Nat.mod_two_eq_zero_or_one n with even | odd
        · simp [even, Nat.add_mod]
        · simp [odd, Nat.add_mod]
    have word : strempty (if n % 2 = 0 then [97] else [98]) = false := by split <;> rfl
    rw [grows, kept, List.foldl_append, ← kept, ih, List.foldl_cons, List.foldl_nil, keep,
      if_neg (by simp [word]), if_neg differs]

theorem full_stays {cmds : List Str} (many : 256 ≤ (kept cmds).length) (buf : Str) :
    bothRead cmds true (atStart cmds buf) 16 =
      some ((atStart cmds buf).1, Editor.press (recent cmds) true (atStart cmds buf).2 .prev) := by
  have none := (typed_holds cmds).stops (by omega)
  have stays : (atStart cmds buf).1.prev = some (atStart cmds buf).1 := by
    rw [Console.prev, atStart, none]
  have read : Console.readEsc .idle 16 = (.idle, some 16) := rfl
  have console : (atStart cmds buf).1.getc true 16 = (atStart cmds buf).1.prev := by
    simp [Console.getc, atStart, read, Console.key, PREV]
  have read : Editor.read .idle 16 = (.idle, some .prev) := rfl
  have editor : (atStart cmds buf).2.getc (recent cmds) true 16 =
      Editor.press (recent cmds) true (atStart cmds buf).2 .prev := by
    simp [Editor.getc, atStart, read]
  rw [bothRead, console, stays, editor, Option.map_some]

/-- With 256 commands kept the line stays as it is, where the last of them should be shown. -/
theorem full_shows_none :
    ¬Always (bothRead (alternating 256) true) Same (atStart (alternating 256) []) [16] := by
  have many : (kept (alternating 256)).length = 256 := by
    rw [kept_alternating, alternating, List.length_map, List.length_range]
  have last : (Editor.press (recent (alternating 256)) true
      (atStart (alternating 256) []).2 .prev).line = [98] := by
    rw [atStart, recent, kept_alternating]
    decide +kernel
  intro ⟨_, state, read, after⟩
  rw [full_stays many.ge [], Option.some.injEq] at read
  subst read
  have line := after.line
  rw [last] at line
  cases line

end Embryo.Shell
