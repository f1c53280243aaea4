import Embryo.Shell.Editor
import Embryo.Shell.Words
import Embryo.Lib.InPlace
import Embryo.Lib.Cvt

namespace Embryo.Shell

open Embryo.Machine

def lineBuffer (buf : Nat) : Lib.InPlace.Buffer := ⟨buf, maxLineSize⟩

/-- `find_bang`. The loop over a quotation stops at the terminator, and the step after it leads past it. -/
def findBang (mem : Memory) : Nat → Nat → Option (Option Nat)
  | 0, _ => none
  | fuel + 1, p =>
    if mem p = 0 then some none
    else if quote (mem p) then (skip (fun c => !quote c) mem fuel (p + 1)).bind fun p =>
      findBang mem fuel (p + 1)
    else if mem p = 33 then some (some p)
    else findBang mem fuel (p + 1)

def getWord (mem : Memory) (fuel : Nat) (buf : Nat) : Option (Option (Str × Nat)) := do
  let p ← skip isspace mem fuel buf
  if mem p = 0 then return none
  let a ← skip (fun c => !isspace c) mem fuel p
  if a - p < maxLineSize then return some (bytes mem p (a - p), a) else none

def Hist.lookup (s : Hist) (word : Str) : Option (Option Str) :=
  if word = [33] then some s.readLastCmd
  else
    match Lib.atob word 10 with
    | some no => s.findHistByNum (BitVec.ofNat 32 no).toInt
    | none => s.findHistByPrefix word

/-- What a pass of the loop of `get_cmd` does with the word behind the `!` at `bp`. -/
def expandWord (s : Hist) (fuel buf : Nat) (mem : Memory) (bp rp : Nat) (word : Str) :
    Option (Pass (Memory × Nat) Memory) :=
  if strempty word then some (.again (mem, rp))
  else do
    match ← s.lookup word with
    | some cp =>
      let mem ← (fun mem => mem.bind fun mem => Lib.InPlace.strdchr (lineBuffer buf)
        fuel mem bp)^[word.length + 1] (some mem)
      let mem ← Lib.InPlace.stristr (lineBuffer buf) fuel cp mem bp
      return .again (mem, rp - (word.length + 1) + cp.length)
    | none => return .leave (← (lineBuffer buf).store mem buf 0)

/-- A pass of the loop. `get_word` starts at a `!` and always finds a word, the `!` included. -/
def expandPass (s : Hist) (fuel buf : Nat) : Memory × Nat → Option (Pass (Memory × Nat) Memory)
  | (mem, rp) => do
    match ← findBang mem fuel rp with
    | none => return .leave mem
    | some bp =>
      match ← getWord mem fuel bp with
      | none => none
      | some (word, rp) => expandWord s fuel buf mem bp rp word.tail

def expand (s : Hist) (fuel : Nat) (mem : Memory) (buf : Nat) : Option Memory :=
  loop (expandPass s fuel buf) fuel (mem, buf)

structure Parsed where
  bangs : List (Str × Str)
  tail : Str
  closed : Bool
deriving DecidableEq

namespace Parsed

def text (c : UInt8) : Parsed → Parsed
  | ⟨[], tail, closed⟩ => ⟨[], c :: tail, closed⟩
  | ⟨(before, word) :: rest, tail, closed⟩ => ⟨(c :: before, word) :: rest, tail, closed⟩

def bang (word : Str) (p : Parsed) : Parsed := { p with bangs := ([], word) :: p.bangs }

end Parsed

def firstWord (s : Str) : Str := s.takeWhile fun c => !isspace c

/-- The line after some characters, read from inside a quotation or from outside. The word behind a
    bang is read with it, up to the next blank. -/
def parseLine : Nat → Bool → Str → Parsed
  | _, inside, [] => ⟨[], [], !inside⟩
  | n + 1, inside, _ :: s => parseLine n inside s
  | 0, inside, c :: s =>
    if c = 33 ∧ inside = false then (parseLine (firstWord s).length false s).bang (firstWord s)
    else (parseLine 0 (inside != quote c) s).text c

def number (word : Str) : Option Int :=
  if word = [33] then none else (Lib.atob word 10).map fun no => (BitVec.ofNat 32 no).toInt

/-- The command that a word names: the last one for `!`, the one with a number if it is still kept,
    or the last that starts with it. -/
def names (h : List Str) (word : Str) : Option Str :=
  if word = [33] then h.getLast?
  else
    match number word with
    | some n => numbered h n
    | none => (h.drop (h.length - 256)).reverse.find? word.isPrefixOf

def replacement (h : List Str) (word : Str) : Option Str := if word = [] then some [33] else names h word

def replaced (h : List Str) (tail : Str) : List (Str × Str) → Option Str
  | [] => some tail
  | (before, word) :: rest => do return before ++ (← replacement h word) ++ (← replaced h tail rest)

def expanded (h : List Str) (line : Str) : Str :=
  (replaced h (parseLine 0 false line).tail (parseLine 0 false line).bangs).getD []

/-- Whatever lies behind the line, its expansion ends, stores to the buffer only and leaves the
    expanded line there. -/
def Expands (cmds : List Str) (line : Str) : Prop :=
  ∀ mem buf, CStr mem buf line → ∃ enough, ∀ fuel ≥ enough, ∃ mem',
    expand (typed cmds) fuel mem buf = some mem' ∧ CStr mem' buf (expanded (kept cmds) line)

theorem parseLine_skip (n : Nat) (inside : Bool) (s : Str) :
    parseLine n inside s = parseLine 0 inside (s.drop n) := by
  induction n generalizing s with
  | zero => rfl
  | succ n ih =>
    cases s with
    | nil => rfl
    | cons c s => rw [parseLine, ih, List.drop_succ_cons]

@[simp] theorem parseLine_bang_cons (s : Str) :
    parseLine 0 false (33 :: s) = (parseLine 0 false (s.drop (firstWord s).length)).bang (firstWord s) := by
  rw [parseLine, if_pos ⟨rfl, rfl⟩, parseLine_skip]

theorem parseLine_text_cons {inside : Bool} {c : UInt8} (other : ¬(c = 33 ∧ inside = false)) (s : Str) :
    parseLine 0 inside (c :: s) = (parseLine 0 (inside != quote c) s).text c := by
  rw [parseLine, if_neg other]

theorem text_none {c : UInt8} {p : Parsed} (none : (p.text c).bangs = []) :
    p.bangs = [] ∧ p.text c = ⟨[], c :: p.tail, p.closed⟩ := by
  obtain ⟨bangs, tail, closed⟩ := p
  cases bangs with
  | nil => exact ⟨rfl, rfl⟩
  | cons b rest => cases none

theorem text_some {c : UInt8} {p : Parsed} {before word : Str} {rest : List (Str × Str)}
    (some' : (p.text c).bangs = (before, word) :: rest) :
    ∃ before', before = c :: before' ∧ p.bangs = (before', word) :: rest ∧
      (p.text c).tail = p.tail ∧ (p.text c).closed = p.closed := by
  obtain ⟨bangs, tail, closed⟩ := p
  cases bangs with
  | nil => cases some'
  | cons b bangs =>
    cases some'
    exact ⟨b.1, rfl, rfl, rfl, rfl⟩

theorem parseLine_none {inside : Bool} {s : Str} (none : (parseLine 0 inside s).bangs = []) :
    (parseLine 0 inside s).tail = s := by
  induction s generalizing inside with
  | nil => rfl
  | cons c s ih =>
    by_cases bang : c = 33 ∧ inside = false
    · obtain ⟨rfl, rfl⟩ := bang
      rw [parseLine_bang_cons] at none
      cases none
    · rw [parseLine_text_cons bang] at none ⊢
      obtain ⟨none', shape⟩ := text_none none
      rw [shape, ih none']

theorem parseLine_some {inside : Bool} {s before word : Str} {rest : List (Str × Str)}
    (some' : (parseLine 0 inside s).bangs = (before, word) :: rest) :
    ∃ after, s = before ++ 33 :: (word ++ after) ∧ (∀ c ∈ word, isspace c = false) ∧
      (∀ c r, after = c :: r → isspace c = true) ∧
      parseLine 0 false after = ⟨rest, (parseLine 0 inside s).tail, (parseLine 0 inside s).closed⟩ := by
  induction s generalizing inside before with
  | nil => cases some'
  | cons c s ih =>
    by_cases bang : c = 33 ∧ inside = false
    · obtain ⟨rfl, rfl⟩ := bang
      rw [parseLine_bang_cons] at some' ⊢
      obtain ⟨⟨rfl, rfl⟩, rfl⟩ : ([] = before ∧ firstWord s = word) ∧ _ = rest :=
        ⟨Prod.mk.inj (List.cons.inj some').1, (List.cons.inj some').2⟩
      have split : firstWord s ++ s.dropWhile (fun c => !isspace c) = s := List.takeWhile_append_dropWhile
      have after : (firstWord s ++ s.dropWhile fun c => !isspace c).drop (firstWord s).length = _ :=
        List.drop_left
      rw [split] at after
      refine ⟨_, ?_, ?_, ?_, rfl⟩
      · rw [after, split]
        rfl
      · intro c member
        simpa using List.mem_takeWhile_imp member
      · intro c r cons
        rw [after] at cons
        have stops := List.head_dropWhile_not (fun c => !isspace c) (by rw [cons]; exact List.cons_ne_nil c r)
        simpa [cons] using stops
    · rw [parseLine_text_cons bang] at some' ⊢
      obtain ⟨before', rfl, there, tail, closed⟩ := text_some some'
      obtain ⟨after, rfl, word, stops, parsed⟩ := ih there
      exact ⟨after, rfl, word, stops, by rw [parsed, tail, closed]⟩

/-- What `find_bang` answers for a line at `p`. A quotation that is not closed leads it past the
    terminator. -/
def Finds (mem : Memory) (p : Nat) (fuel : Nat) (s : Str) (r : Option (Option Nat))
    (parsed : Parsed) : Prop :=
  match parsed.bangs with
  | (before, _) :: _ => r = some (some (p + before.length))
  | [] =>
    if parsed.closed then r = some none else ∃ fuel', fuel ≤ fuel' + s.length + 1 ∧
      r = findBang mem fuel' (p + s.length + 1)

theorem Finds.text {mem : Memory} {p fuel fuel' : Nat} {s : Str} {r : Option (Option Nat)}
    {parsed : Parsed} (c : UInt8)
    (finds : Finds mem (p + 1) fuel s r parsed) (bound : fuel' ≤ fuel + 1) :
    Finds mem p fuel' (c :: s) r (parsed.text c) := by
  obtain ⟨bangs, tail, closed⟩ := parsed
  cases bangs with
  | nil =>
    cases closed with
    | true => exact finds
    | false =>
      obtain ⟨rest, enough, same⟩ := finds
      refine ⟨rest, by rw [List.length_cons]; omega, ?_⟩
      rw [same, List.length_cons, Nat.add_right_comm p 1, Nat.add_assoc p]
  | cons b bangs =>
    have same : r = some (some (p + 1 + b.1.length)) := finds
    show r = some (some (p + (c :: b.1).length))
    rw [same, List.length_cons, Nat.add_right_comm, Nat.add_assoc]

theorem finds_parseLine {mem : Memory} {p : Nat} {s : Str} (held : CStr mem p s) :
    (∀ fuel > s.length, Finds mem p fuel s (findBang mem fuel p) (parseLine 0 false s)) ∧
      ∀ fuel > s.length, ∀ fuel' > s.length,
        Finds mem p fuel' s ((skip (fun c => !quote c) mem fuel p).bind fun p =>
          findBang mem fuel' (p + 1)) (parseLine 0 true s) := by
  induction s generalizing p with
  | nil =>
    have ended : mem p = 0 := held
    refine ⟨fun fuel more => ?_, fun fuel more fuel' _ => ?_⟩
    · obtain ⟨fuel, rfl⟩ : ∃ rest, fuel = rest + 1 := ⟨fuel - 1, by rw [List.length_nil] at more; omega⟩
      rw [findBang, if_pos ended]
      rfl
    · obtain ⟨fuel, rfl⟩ : ∃ rest, fuel = rest + 1 := ⟨fuel - 1, by rw [List.length_nil] at more; omega⟩
      rw [skip, if_neg (fun both => both.1 ended), Option.bind_some]
      exact ⟨fuel', by omega, rfl⟩
  | cons c s ih =>
    obtain ⟨first, nonzero, rest⟩ := held
    obtain ⟨outside, inside⟩ := ih rest
    refine ⟨fun fuel more => ?_, fun fuel more fuel' more' => ?_⟩
    · rw [List.length_cons] at more
      obtain ⟨fuel, rfl⟩ : ∃ rest, fuel = rest + 1 := ⟨fuel - 1, by omega⟩
      rw [findBang, first, if_neg nonzero]
      by_cases opens : quote c = true
      · have other : ¬(c = 33 ∧ false = false) := by
          rintro ⟨rfl, -⟩
          cases opens
        rw [if_pos opens, parseLine_text_cons other, opens]
        exact (inside fuel (by omega) fuel (by omega)).text c (Nat.le_refl _)
      · rw [if_neg opens]
        by_cases bang : c = 33
        · subst bang
          rw [if_pos rfl, parseLine_bang_cons]
          rfl
        · rw [Bool.not_eq_true] at opens
          rw [if_neg bang, parseLine_text_cons (fun both => bang both.1), opens]
          exact (outside fuel (by omega)).text c (Nat.le_refl _)
    · rw [List.length_cons] at more more'
      obtain ⟨fuel, rfl⟩ : ∃ rest, fuel = rest + 1 := ⟨fuel - 1, by omega⟩
      rw [parseLine_text_cons (fun both => Bool.noConfusion both.2)]
      by_cases closes : quote c = true
      · rw [skip, first, if_neg (by rw [closes]; exact fun both => Bool.noConfusion both.2),
          Option.bind_some, closes]
        exact (outside fuel' (by omega)).text c (Nat.le_succ _)
      · rw [Bool.not_eq_true] at closes
        rw [skip, first, if_pos ⟨nonzero, by rw [closes]; rfl⟩, closes]
        exact (inside fuel (by omega) fuel' (by omega)).text c (Nat.le_succ _)

theorem getWord_eq {mem : Memory} {p : Nat} (fuel : Nat) {word after : Str}
    (held : CStr mem p (33 :: (word ++ after)))
    (plain : ∀ c ∈ word, isspace c = false) (stops : ∀ c r, after = c :: r → isspace c = true)
    (short : word.length + 1 < maxLineSize) (enough : (word ++ after).length + 1 < fuel) :
    getWord mem fuel p = some (some (33 :: word, p + word.length + 1)) := by
  have first : mem p = 33 := held.1
  have starts : skip isspace mem fuel p = some p :=
    CStr.skip (a := []) held (fun c member => absurd member List.not_mem_nil)
      (fun c r cons => by cases cons; rfl) fuel
      (by simpa using enough)
  have whole : CStr mem p ((33 :: word) ++ after) := held
  have keeps : ∀ c ∈ 33 :: word, (!isspace c) = true := by
    intro c member
    rcases List.mem_cons.mp member with rfl | other
    · rfl
    · simp [plain c other]
  have ends : skip (fun c => !isspace c) mem fuel p = some (p + (33 :: word).length) :=
    whole.skip keeps (fun c r cons => by simp [stops c r cons]) fuel (by simpa using enough)
  have chars := (cstr_append.mp whole).1
  rw [getWord, starts]
  simp only [Option.bind_eq_bind, Option.bind_some, first, ends, Nat.add_sub_cancel_left]
  rw [if_neg (by decide), List.length_cons, if_pos short, ← List.length_cons, chars]
  rfl

section

variable {s : Hist} {h : List Str}

def Beside (h : List Str) (word : Str) : Prop := ∃ n, number word = some n ∧ BesideTable h n

instance (h : List Str) (word : Str) : Decidable (Beside h word) :=
  match found : number word with
  | some n => decidable_of_iff (BesideTable h n)
    ⟨fun beside => ⟨n, found, beside⟩, fun ⟨_, same, beside⟩ =>
      Option.some.inj (found.symm.trans same) ▸ beside⟩
  | none => isFalse fun ⟨_, same, _⟩ => nomatch found.symm.trans same

/-- What the code puts in the place of a bang and its word. In a full table it finds the numbered
    commands only. -/
def answer (h : List Str) (word : Str) : Option Str :=
  if word = [] then some [33] else if h.length < 256 ∨ (number word).isSome then names h word else none

theorem Holds.lookup_eq (holds : Holds s h) (short : h.length < 2^31) {word : Str} (nonempty : word ≠ []) :
    (Beside h word → s.lookup word = none) ∧ (¬Beside h word → s.lookup word = some (answer h word)) := by
  unfold Beside answer Hist.lookup
  rw [if_neg nonempty]
  by_cases last : word = [33]
  · have other : number word = none := if_pos last
    rw [if_pos last, other, names, if_pos last, holds.read_last]
    refine ⟨fun ⟨n, some', _⟩ => absurd some' nofun, fun _ => ?_⟩
    simp
  · rw [if_neg last, names, if_neg last, number, if_neg last]
    cases read : Lib.atob word 10 with
    | some no =>
      simp only [Option.map_some, Option.some.injEq, exists_eq_left', Option.isSome_some, or_true,
        if_true, holds.by_num short]
      exact ⟨fun beside => if_pos beside, fun inside => if_neg inside⟩
    | none =>
      refine ⟨fun ⟨n, some', _⟩ => absurd some' nofun, fun _ => ?_⟩
      by_cases few : h.length < 256
      · simp [holds.prefix_found few nonempty, few, Nat.sub_eq_zero_of_le few.le]
      · simp [holds.prefix_stops few, few]

theorem names_mem {word cmd : Str} (named : names h word = some cmd) : cmd ∈ h := by
  unfold names at named
  split at named
  · exact List.mem_of_getLast? named
  · split at named
    · unfold numbered at named
      split at named
      · exact List.mem_of_getElem? named
      · cases named
    · exact List.mem_of_mem_drop (List.mem_reverse.mp (List.mem_of_find?_eq_some named))

theorem answer_replacement {word cmd : Str} (found : answer h word = some cmd) :
    replacement h word = some cmd := by
  unfold answer at found
  unfold replacement
  split_ifs at found ⊢
  · exact found
  · exact found

end

def unread (tail : Str) (bangs : List (Str × Str)) : Str :=
  (bangs.map fun b => b.1 ++ 33 :: b.2).flatten ++ tail

/-- How the loop ends. A quotation that is not closed leads it past the line, which has been longer before. -/
inductive Finish where
  | fault
  | missed
  | kept (line : Str)
  | past (line : Str) (high : Nat)
deriving DecidableEq

def finish (h : List Str) (tail : Str) (closed : Bool) : Nat → Str → List (Str × Str) → Finish
  | high, done, [] => if closed then .kept (done ++ tail) else .past (done ++ tail) high
  | high, done, (before, word) :: rest =>
    if Beside h word then .fault
    else
      match answer h word with
      | none => .missed
      | some cmd =>
        let line := done ++ before ++ cmd ++ unread tail rest
        if line.length < maxLineSize then finish h tail closed (max high line.length)
          (done ++ before ++ cmd) rest else .fault

/-- The line lies at the start of the buffer. Behind it are zeros, as far as it has reached, and
    then what was there before. -/
structure Line (buf : Nat) (old mem : Memory) (line : Str) (high : Nat) : Prop where
  held : CStr mem buf line
  room : line.length < maxLineSize
  reach : line.length ≤ high
  clear : ∀ x, buf + line.length ≤ x → x ≤ buf + high → mem x = 0
  same : ∀ x, buf + high < x → mem x = old x

section

variable {buf high fuel : Nat} {old mem : Memory} {a w r cmd : Str}

theorem Line.taken (line : Line buf old mem (a ++ (w ++ r)) high) (fuel : Nat) (enough : maxLineSize ≤ fuel) :
    ∃ mem', (fun mem => mem.bind fun mem => Lib.InPlace.strdchr (lineBuffer buf) fuel mem
      (buf + a.length))^[w.length] (some mem) = some mem' ∧
      CStr mem' (buf + a.length) r ∧ Line buf old mem' (a ++ r) high := by
  have room := line.room
  have reach := line.reach
  have clear := line.clear
  simp only [List.length_append] at room reach clear
  obtain ⟨before, nonzero, there⟩ := cstr_append.mp line.held
  obtain ⟨mem', done, left, below, zeros, above⟩ := Lib.InPlace.strdchr_times (lineBuffer buf) fuel there
    (Nat.le_add_right _ _) (by simp only [lineBuffer, List.length_append]; omega)
      (by simp only [List.length_append]; omega)
  simp only [List.length_append] at zeros above
  refine ⟨mem', done, left, cstr_append.mpr ⟨?_, nonzero, left⟩, ?_, ?_, ?_, ?_⟩
  · rw [bytes_congr fun x _ less => below x less, before]
  · rw [List.length_append]
    omega
  · rw [List.length_append]
    omega
  · intro x high' less
    rw [List.length_append] at high'
    by_cases inside : x ≤ buf + a.length + (w.length + r.length)
    · exact zeros x (by omega) inside
    · rw [above x (by omega)]
      exact clear x (by omega) less
  · intro x more
    rw [above x (by omega), line.same x more]

theorem Line.put (line : Line buf old mem (a ++ r) high) (nonzero : 0 ∉ cmd)
    (fits : (a ++ (cmd ++ r)).length < maxLineSize) (fuel : Nat) (enough : maxLineSize ≤ fuel) :
    ∃ mem', Lib.InPlace.stristr (lineBuffer buf) fuel cmd mem (buf + a.length) = some mem' ∧
      Line buf old mem' (a ++ (cmd ++ r)) (max high (a ++ (cmd ++ r)).length) := by
  have reach := line.reach
  have clear := line.clear
  simp only [List.length_append] at fits reach clear
  obtain ⟨before, clean, there⟩ := cstr_append.mp line.held
  obtain ⟨mem', done, put, below, above⟩ := Lib.InPlace.stristr_eq (lineBuffer buf) fuel nonzero there
    (by omega) (Nat.le_add_right _ _) (by simp only [lineBuffer]; omega)
  refine ⟨mem', done, cstr_append.mpr ⟨?_, clean, put⟩, ?_, Nat.le_max_right _ _, ?_, ?_⟩
  · rw [bytes_congr fun x _ less => below x less, before]
  · simp only [List.length_append]
    omega
  · intro x high' less
    have whole : (a ++ (cmd ++ r)).length = a.length + cmd.length + r.length := by
      simp only [List.length_append]; omega
    by_cases last : x = buf + (a ++ (cmd ++ r)).length
    · have ended := put.ended
      rw [List.length_append] at ended
      rw [last, whole, show buf + (a.length + cmd.length + r.length) =
        buf + a.length + (cmd.length + r.length) by omega, ended]
    · rw [above x (by omega)]
      exact clear x (by omega) (by omega)
  · intro x more
    simp only [List.length_append] at more
    rw [above x (by omega), line.same x (by omega)]

theorem line_emptied (mem : Memory) (buf : Nat) :
    ∃ mem', (lineBuffer buf).store mem buf 0 = some mem' ∧ CStr mem' buf [] :=
  ⟨_, if_pos ⟨Nat.le_refl _, by simp only [lineBuffer, maxLineSize]; omega⟩, Function.update_self _ _ _⟩

end

/-- What a finish says about a run. Where the line has not been longer before, the loop goes on with
    what was behind it at the start. -/
def Ends (buf : Nat) (old : Memory) (unknown : Str) (run : Option Memory) : Finish → Prop
  | .fault => run = none
  | .missed => ∃ mem, run = some mem ∧ CStr mem buf []
  | .kept line => ∃ mem, run = some mem ∧ CStr mem buf line
  | .past line high =>
    (line.length < high → ∃ mem, run = some mem ∧ CStr mem buf line) ∧
      (high ≤ line.length → CStr old (buf + line.length + 1) (33 :: unknown) →
        ∃ mem, run = some mem ∧ CStr mem buf [])

structure Unknown (h : List Str) (word : Str) : Prop where
  nonempty : word ≠ []
  short : word.length < 128
  plain : ∀ c ∈ word, isspace c = false
  inside : ¬Beside h word
  unanswered : answer h word = none

theorem parseLine_unread {inside : Bool} {s : Str} :
    unread (parseLine 0 inside s).tail (parseLine 0 inside s).bangs = s := by
  induction found : (parseLine 0 inside s).bangs generalizing inside s with
  | nil => exact parseLine_none found
  | cons b rest ih =>
    obtain ⟨after, rfl, -, -, parsed⟩ := parseLine_some found
    have later := ih (congrArg Parsed.bangs parsed)
    rw [parsed] at later
    rw [unread, List.map_cons, List.flatten_cons, List.append_assoc, ← unread, later,
      List.append_assoc, List.cons_append]

section

variable {s : Hist} {h : List Str} {buf high fuel : Nat} {old mem : Memory}

theorem pass_none {done rest tail : Str} {closed : Bool}
    (line : Line buf old mem (done ++ rest) high) (enough : 1024 ≤ fuel)
    (parsed : parseLine 0 false rest = ⟨[], tail, closed⟩) :
    if closed then findBang mem fuel (buf + done.length) = some none
    else ∃ fuel' ≥ 512, findBang mem fuel (buf + done.length) =
      findBang mem fuel' (buf + (done ++ rest).length + 1) := by
  have there := (cstr_append.mp line.held).2.2
  have room := line.room
  rw [List.length_append, maxLineSize] at room
  have finds := (finds_parseLine there).1 fuel (by omega)
  rw [parsed] at finds
  cases closed with
  | true => exact finds
  | false =>
    obtain ⟨fuel', more, same⟩ := finds
    exact ⟨fuel', by omega, by rw [same, List.length_append, Nat.add_assoc buf]⟩

theorem word_nonblank {word : Str} (nonempty : word ≠ []) (plain : ∀ c ∈ word, isspace c = false) :
    strempty word = false := by
  cases word with
  | nil => exact absurd rfl nonempty
  | cons c w => rw [strempty, List.all_cons, plain c List.mem_cons_self, Bool.false_and]

theorem pass_some {done rest before word tail : Str} {bangs : List (Str × Str)} {closed : Bool}
    (line : Line buf old mem (done ++ rest) high) (enough : 1024 ≤ fuel)
    (parsed : parseLine 0 false rest = ⟨(before, word) :: bangs, tail, closed⟩) :
    ∃ after, rest = before ++ 33 :: (word ++ after) ∧ (∀ c ∈ word, isspace c = false) ∧
      parseLine 0 false after = ⟨bangs, tail, closed⟩ ∧ expandPass s fuel buf (mem, buf + done.length) =
        expandWord s fuel buf mem (buf + (done ++ before).length)
        (buf + (done ++ before).length + word.length + 1) word := by
  have there := (cstr_append.mp line.held).2.2
  have room := line.room
  rw [List.length_append, maxLineSize] at room
  have finds := (finds_parseLine there).1 fuel (by omega)
  obtain ⟨after, rfl, plain, stops, later⟩ := parseLine_some (congrArg Parsed.bangs parsed)
  rw [parsed] at finds later
  have found : findBang mem fuel (buf + done.length) = some (some (buf + (done ++ before).length)) := by
    rw [List.length_append, ← Nat.add_assoc]
    exact finds
  have bang : CStr mem (buf + (done ++ before).length) (33 :: (word ++ after)) := by
    rw [List.length_append, ← Nat.add_assoc]
    exact (cstr_append.mp there).2.2
  simp only [List.length_append, List.length_cons] at room
  have read := getWord_eq fuel bang plain stops (by rw [maxLineSize]; omega)
    (by rw [List.length_append]; omega)
  refine ⟨after, rfl, plain, later, ?_⟩
  rw [expandPass, found, Option.bind_eq_bind, Option.bind_some]
  simp only [read, Option.bind_eq_bind, Option.bind_some, List.tail_cons]

theorem expandWord_missed (fuel : Nat) (mem : Memory) (buf : Nat) {word : Str}
    (nonblank : strempty word = false) (missed : s.lookup word = some none) (bp rp : Nat) :
    ∃ mem', expandWord s fuel buf mem bp rp word = some (.leave mem') ∧ CStr mem' buf [] := by
  obtain ⟨mem', stored, empty⟩ := line_emptied mem buf
  refine ⟨mem', ?_, empty⟩
  rw [expandWord, if_neg (by rw [nonblank]; exact Bool.false_ne_true), missed, Option.bind_eq_bind,
    Option.bind_some]
  simp only [stored, Option.bind_eq_bind, Option.bind_some]
  rfl

theorem expandWord_found {done word after cmd : Str}
    (line : Line buf old mem (done ++ 33 :: (word ++ after)) high) (enough : 1024 ≤ fuel)
    (nonblank : strempty word = false) (found : s.lookup word = some (some cmd)) (nonzero : 0 ∉ cmd)
    (short : cmd.length < maxLineSize) :
    if (done ++ cmd ++ after).length < maxLineSize then
      ∃ mem', expandWord s fuel buf mem (buf + done.length) (buf + done.length + word.length + 1) word =
          some (.again (mem', buf + (done ++ cmd).length)) ∧
        Line buf old mem' (done ++ cmd ++ after) (max high (done ++ cmd ++ after).length)
    else expandWord s fuel buf mem (buf + done.length) (buf + done.length + word.length + 1) word = none := by
  have whole : Line buf old mem (done ++ ((33 :: word) ++ after)) high := line
  obtain ⟨mem₁, taken, left, shorter⟩ := whole.taken fuel (by rw [maxLineSize]; omega)
  have room := shorter.room
  have start : expandWord s fuel buf mem (buf + done.length) (buf + done.length + word.length + 1) word =
      (Lib.InPlace.stristr (lineBuffer buf) fuel cmd mem₁ (buf + done.length)).bind fun mem =>
        some (.again (mem, buf + done.length + word.length + 1 - (word.length + 1) + cmd.length)) := by
    rw [List.length_cons] at taken
    rw [expandWord, if_neg (by rw [nonblank]; exact Bool.false_ne_true), found, Option.bind_eq_bind,
      Option.bind_some]
    simp only [taken, Option.bind_eq_bind, Option.bind_some]
    rfl
  have place : buf + done.length + word.length + 1 - (word.length + 1) + cmd.length =
      buf + (done ++ cmd).length := by
    rw [List.length_append]
    omega
  rw [start, place]
  split
  case isTrue fits =>
    rw [List.append_assoc] at fits ⊢
    obtain ⟨mem₂, put, there⟩ := shorter.put nonzero fits fuel (by rw [maxLineSize]; omega)
    exact ⟨mem₂, by rw [put, Option.bind_some], there⟩
  case isFalse full =>
    simp only [List.length_append, maxLineSize] at room short full
    have none := Lib.InPlace.stristr_full (lineBuffer buf) fuel nonzero left (by omega) (Nat.le_add_right _ _)
      (by simp only [lineBuffer, maxLineSize]; omega) (by simp only [lineBuffer, maxLineSize]; omega)
    rw [none]
    rfl

theorem loop_ends (holds : Holds s h) (few : h.length < 2^31)
    (short : ∀ cmd ∈ h, cmd.length < maxLineSize) (nonzero : ∀ cmd ∈ h, 0 ∉ cmd) {unknown : Str}
    (lost : Unknown h unknown) (enough : 1024 ≤ fuel) {tail : Str} {closed : Bool}
    (bangs : List (Str × Str)) {done rest : Str} (line : Line buf old mem (done ++ rest) high)
    (parsed : parseLine 0 false rest = ⟨bangs, tail, closed⟩) {passes : Nat}
    (more : bangs.length < passes) :
    Ends buf old unknown (loop (expandPass s fuel buf) passes (mem, buf + done.length))
    (finish h tail closed high done bangs) := by
  induction bangs generalizing mem high done rest passes with
  | nil =>
    have whole : rest = tail := by
      have same := parseLine_none (congrArg Parsed.bangs parsed)
      rw [parsed] at same
      exact same.symm
    subst whole
    have found := pass_none line enough parsed
    rw [finish]
    cases closed with
    | true =>
      rw [if_pos rfl] at found ⊢
      refine ⟨mem, loop_leave more ?_, line.held⟩
      rw [expandPass, found]
      rfl
    | false =>
      rw [if_neg Bool.false_ne_true] at found ⊢
      obtain ⟨fuel', some', found⟩ := found
      obtain ⟨left, rfl⟩ : ∃ left, fuel' = left + 1 := ⟨fuel' - 1, by omega⟩
      constructor
      · intro longer
        refine ⟨mem, loop_leave more ?_, line.held⟩
        rw [expandPass, found, findBang, if_pos (line.clear _ (by omega) (by omega))]
        rfl
      · intro longest behind
        have there : CStr mem (buf + (done ++ rest).length + 1) (33 :: (unknown ++ [])) := by
          rw [List.append_nil]
          exact behind.congr fun x low _ => line.same x (by omega)
        have first : mem (buf + (done ++ rest).length + 1) = 33 := there.1
        have unknownShort := lost.short
        have read := getWord_eq fuel there lost.plain nofun (by rw [maxLineSize]; omega)
          (by rw [List.append_nil]; omega)
        obtain ⟨mem', missed, empty⟩ := expandWord_missed fuel mem buf
          (word_nonblank lost.nonempty lost.plain)
          (((holds.lookup_eq few lost.nonempty).2 lost.inside).trans (congrArg some lost.unanswered)) _ _
        refine ⟨mem', loop_leave more ?_, empty⟩
        rw [expandPass, found, findBang, first, if_neg (by decide), if_neg (by decide), if_pos rfl]
        simp only [Option.bind_eq_bind, Option.bind_some, read, List.tail_cons]
        exact missed
  | cons b bangs ih =>
    obtain ⟨before, word⟩ := b
    obtain ⟨after, rfl, plain, later, passed⟩ := pass_some (s := s) line enough parsed
    have left : unread tail bangs = after := by
      have same := @parseLine_unread false after
      rwa [later] at same
    have room := line.room
    have reach := line.reach
    obtain ⟨passes, rfl⟩ : ∃ left, passes = left + 1 := ⟨passes - 1, by rw [List.length_cons] at more; omega⟩
    have fewer : bangs.length < passes := Nat.lt_of_succ_lt_succ more
    rw [finish, left]
    by_cases empty : word = []
    · subst empty
      have same : done ++ (before ++ 33 :: ([] ++ after)) = done ++ before ++ [33] ++ after := by
        simp only [List.append_assoc, List.nil_append, List.singleton_append]
      rw [same] at line room reach
      have again := ih line later fewer
      have one : buf + (done ++ before).length + ([] : Str).length + 1 =
          buf + (done ++ before ++ [33]).length := by
        simp only [List.length_append, List.length_nil, List.length_singleton]
        omega
      rw [one, expandWord, if_pos (show strempty [] = true from rfl)] at passed
      rw [loop_again passed, if_neg (fun ⟨_, number, _⟩ => nomatch number), answer, if_pos rfl]
      simp only [if_pos room, Nat.max_eq_left reach]
      exact again
    · have nonblank := word_nonblank empty plain
      obtain ⟨beside, inside⟩ := holds.lookup_eq few empty
      by_cases aside : Beside h word
      · rw [if_pos aside]
        have fault : expandPass s fuel buf (mem, buf + done.length) = none := by
          rw [passed, expandWord, if_neg (by rw [nonblank]; exact Bool.false_ne_true), beside aside]
          rfl
        show loop _ (passes + 1) _ = none
        rw [loop, fault]
      · rw [if_neg aside]
        cases found : answer h word with
        | none =>
          obtain ⟨mem', missed, cleared⟩ := expandWord_missed fuel mem buf nonblank
            ((inside aside).trans (congrArg some found)) _ _
          exact ⟨mem', loop_leave (Nat.succ_pos _) (passed.trans missed), cleared⟩
        | some cmd =>
          have lookup := (inside aside).trans (congrArg some found)
          have kept : cmd ∈ h := by
            rw [answer, if_neg empty] at found
            split at found
            · exact names_mem found
            · cases found
          have same : done ++ (before ++ 33 :: (word ++ after)) = done ++ before ++ 33 ::
            (word ++ after) := (List.append_assoc _ _ _).symm
          rw [same] at line
          have put := expandWord_found line enough nonblank lookup (nonzero cmd kept) (short cmd kept)
          rw [← passed] at put
          by_cases fits : (done ++ before ++ cmd ++ after).length < maxLineSize
          · rw [if_pos fits] at put
            obtain ⟨mem', stepped, there⟩ := put
            simp only [if_pos fits]
            rw [loop_again stepped]
            exact ih there later fewer
          · rw [if_neg fits] at put
            simp only [if_neg fits]
            show loop _ (passes + 1) _ = none
            rw [loop, put]

end

def hits (h : List Str) (bangs : List (Str × Str)) : Nat :=
  (bangs.takeWhile fun b => (answer h b.2).isSome).length

def partly (h : List Str) (done tail : Str) (bangs : List (Str × Str)) (k : Nat) : Str :=
  done ++ ((bangs.take k).map fun b => b.1 ++ (answer h b.2).getD []).flatten ++ unread tail (bangs.drop k)

def Finish.Good (answer : Str) : Finish → Prop
  | fault => False
  | missed => answer = []
  | kept line => line = answer
  | past line high => line = answer ∧ line.length < high

section

variable {h : List Str} {tail : Str} {closed : Bool} {high : Nat} {done : Str} {bangs : List (Str × Str)}

theorem replacement_nonempty (words : ∀ cmd ∈ h, cmd ≠ []) {word cmd : Str}
    (found : replacement h word = some cmd) : cmd ≠ [] := by
  unfold replacement at found
  split at found
  · cases found
    exact List.cons_ne_nil _ _
  · exact words cmd (names_mem found)

theorem replaced_none : replaced h tail bangs = none ↔ ∃ b ∈ bangs, replacement h b.2 = none := by
  induction bangs with
  | nil => simp [replaced]
  | cons b rest ih =>
    rw [List.exists_mem_cons_iff, ← ih, replaced]
    cases replacement h b.2 with
    | none => simp
    | some cmd =>
      cases replaced h tail rest with
      | none => simp
      | some r => simp

theorem replaced_missed (words : ∀ cmd ∈ h, cmd ≠ []) (b : Str × Str) :
    ((replaced h tail (b :: bangs)).map (done ++ ·)).getD [] = [] ↔
      ∃ c ∈ b :: bangs, replacement h c.2 = none := by
  rw [← @replaced_none h tail, replaced]
  cases found : replacement h b.2 with
  | none => simp
  | some cmd =>
    have nonempty := replacement_nonempty words found
    cases replaced h tail bangs with
    | none => simp
    | some r => simp [nonempty]

/-- The loop does what it should exactly if its lookups stay in the table and its lines in the
    buffer, and if its misses are misses. -/
theorem finish_good (words : ∀ cmd ∈ h, cmd ≠ []) :
    (finish h tail closed high done bangs).Good (((replaced h tail bangs).map (done ++ ·)).getD []) ↔
      (∀ b ∈ bangs.take (hits h bangs + 1), ¬Beside h b.2) ∧
        (∀ k < hits h bangs, (partly h done tail bangs (k + 1)).length < maxLineSize) ∧
        (hits h bangs < bangs.length → ∃ b ∈ bangs, replacement h b.2 = none) ∧
        (hits h bangs = bangs.length → closed = true ∨
          (partly h done tail bangs (hits h bangs)).length < high ∨
          ∃ k < hits h bangs, (partly h done tail bangs (hits h bangs)).length <
            (partly h done tail bangs (k + 1)).length) := by
  induction bangs generalizing high done with
  | nil =>
    have all : partly h done tail [] 0 = done ++ tail := by simp [partly, unread]
    cases closed with
    | true => simp [finish, replaced, hits, Finish.Good]
    | false => simp [finish, replaced, hits, Finish.Good, all]
  | cons b rest ih =>
    obtain ⟨before, word⟩ := b
    rw [finish]
    by_cases aside : Beside h word
    · rw [if_pos aside]
      exact ⟨False.elim, fun all => all.1 (before, word) (by simp) aside⟩
    · rw [if_neg aside]
      cases found : answer h word with
      | none =>
        have none : hits h ((before, word) :: rest) = 0 := by simp [hits, found]
        rw [none, Finish.Good, replaced_missed words]
        constructor
        · intro missing
          refine ⟨fun b first => ?_, fun k less => absurd less (Nat.not_lt_zero k), fun _ =>
            missing, fun whole => nomatch whole⟩
          obtain rfl : b = (before, word) := by simpa using first
          exact aside
        · exact fun all => all.2.2.1 (Nat.succ_pos _)
      | some cmd =>
        have one : hits h ((before, word) :: rest) = hits h rest + 1 := by simp [hits, found]
        have onward : ∀ k, partly h done tail ((before, word) :: rest) (k + 1) =
            partly h (done ++ before ++ cmd) tail rest k := by
          intro k
          simp [partly, found]
        have there : replacement h word = some cmd := answer_replacement found
        have goal : ((replaced h tail ((before, word) :: rest)).map (done ++ ·)).getD [] =
            ((replaced h tail rest).map ((done ++ before ++ cmd) ++ ·)).getD [] := by
          rw [replaced, there]
          cases replaced h tail rest with
          | none => rfl
          | some r => simp
        have first : partly h (done ++ before ++ cmd) tail rest 0 =
          done ++ before ++ cmd ++ unread tail rest := by simp [partly]
        rw [one, goal]
        have miss : (∃ b ∈ (before, word) :: rest, replacement h b.2 = none) ↔
            ∃ b ∈ rest, replacement h b.2 = none := by
          simp [there]
        simp only [onward, ← first, Nat.forall_lt_succ_left, Nat.exists_lt_succ_left,
          List.length_cons, Nat.add_lt_add_iff_right,
          Nat.add_right_cancel_iff, List.take_succ_cons, List.forall_mem_cons, miss]
        by_cases fits : (partly h (done ++ before ++ cmd) tail rest 0).length < maxLineSize
        · rw [if_pos fits, ih]
          simp only [lt_max_iff, or_assoc, aside, not_false_eq_true, fits, true_and]
        · rw [if_neg fits]
          exact ⟨False.elim, fun all => fits all.2.1.1⟩

theorem finish_past {line : Str} {longest : Nat}
    (past : finish h tail closed high done bangs = .past line longest) :
    high ≤ longest ∧ closed = false ∧ (replaced h tail bangs).map (done ++ ·) = some line := by
  induction bangs generalizing high done with
  | nil =>
    rw [finish] at past
    cases closed with
    | true => cases past
    | false =>
      cases past
      exact ⟨Nat.le_refl _, rfl, rfl⟩
  | cons b rest ih =>
    rw [finish] at past
    split at past
    · cases past
    · split at past
      · cases past
      next cmd found =>
        simp only at past
        split at past
        · obtain ⟨grows, unclosed, whole⟩ := ih past
          refine ⟨(Nat.le_max_left _ _).trans grows, unclosed, ?_⟩
          obtain ⟨r, replaced', rfl⟩ := Option.map_eq_some_iff.mp whole
          rw [replaced, answer_replacement found, replaced']
          simp
        · cases past

end

theorem replaced_tail {h : List Str} {tail line : Str} {bangs : List (Str × Str)}
    (found : replaced h tail bangs = some line) :
    tail.length ≤ line.length := by
  induction bangs generalizing line with
  | nil =>
    cases found
    exact Nat.le_refl _
  | cons b rest ih =>
    obtain ⟨cmd, -, found⟩ := Option.bind_eq_some_iff.mp found
    obtain ⟨r, later, found⟩ := Option.bind_eq_some_iff.mp found
    obtain rfl := Option.some.inj found
    exact (ih later).trans (by simp only [List.length_append]; omega)

theorem parseLine_closed {s : Str} (unclosed : (parseLine 0 false s).closed = false) :
    (parseLine 0 false s).tail ≠ [] := by
  induction found : (parseLine 0 false s).bangs generalizing s with
  | nil =>
    intro empty
    rw [parseLine_none found] at empty
    subst empty
    cases unclosed
  | cons b rest ih =>
    obtain ⟨after, -, -, -, parsed⟩ := parseLine_some found
    have later := ih (by rw [parsed]; exact unclosed) (congrArg Parsed.bangs parsed)
    rwa [parsed] at later

theorem bangs_length (tail : Str) (bangs : List (Str × Str)) : bangs.length ≤ (unread tail bangs).length := by
  induction bangs with
  | nil => exact Nat.zero_le _
  | cons b rest ih =>
    rw [unread, List.map_cons, List.flatten_cons, List.append_assoc, ← unread, List.length_append]
    simp only [List.length_append, List.length_cons]
    omega

/-- Every number looked up lies in the table, every line on the way fits in the buffer, what is not
    found names no command, and a quotation is closed unless the line was longer before. -/
structure Expandable (h : List Str) (p : Parsed) : Prop where
  inside : ∀ b ∈ p.bangs.take (hits h p.bangs + 1), ¬Beside h b.2
  room : ∀ k ≤ hits h p.bangs, (partly h [] p.tail p.bangs k).length < maxLineSize
  missing : hits h p.bangs < p.bangs.length → ∃ b ∈ p.bangs, replacement h b.2 = none
  closed : hits h p.bangs = p.bangs.length → p.closed = true ∨
    ∃ k < hits h p.bangs, (partly h [] p.tail p.bangs (hits h p.bangs)).length <
      (partly h [] p.tail p.bangs k).length

theorem expandable_iff {h : List Str} (words : ∀ cmd ∈ h, cmd ≠ []) {line : Str}
    (room : line.length < maxLineSize) :
    Expandable h (parseLine 0 false line) ↔
      (finish h (parseLine 0 false line).tail (parseLine 0 false line).closed line.length []
        (parseLine 0 false line).bangs).Good (expanded h line) := by
  have start : partly h [] (parseLine 0 false line).tail (parseLine 0 false line).bangs 0 = line := by
    rw [partly, List.take_zero, List.drop_zero, parseLine_unread]
    rfl
  have goal : expanded h line =
      ((replaced h (parseLine 0 false line).tail (parseLine 0 false line).bangs).map ([] ++ ·)).getD [] := by
    rw [expanded]
    cases replaced h (parseLine 0 false line).tail (parseLine 0 false line).bangs <;> rfl
  rw [goal, finish_good words]
  generalize parseLine 0 false line = p at start
  constructor
  · intro able
    refine ⟨able.inside, fun k less => able.room (k + 1) less, able.missing, fun whole =>
      (able.closed whole).imp_right ?_⟩
    rintro ⟨k, less, longer⟩
    cases k with
    | zero => exact .inl (start ▸ longer)
    | succ k => exact .inr ⟨k, Nat.lt_of_succ_lt less, longer⟩
  · intro ⟨inside, fits, missing, closed⟩
    refine ⟨inside, fun k bound => ?_, missing, fun whole => (closed whole).imp_right ?_⟩
    · cases k with
      | zero => rwa [start]
      | succ k => exact fits k bound
    · rintro (longer | ⟨k, less, longer⟩)
      · rw [← start] at longer
        refine ⟨0, Nat.pos_of_ne_zero fun first => ?_, longer⟩
        rw [first] at longer
        exact Nat.lt_irrefl _ longer
      · refine ⟨k + 1, lt_of_le_of_ne less fun last => ?_, longer⟩
        rw [← last] at longer
        exact Nat.lt_irrefl _ longer

def tooLarge : Str := Lib.decimal 2147483647

theorem tooLarge_unknown {h : List Str} (few : h.length < 2^31 - 1) : Unknown h tooLarge := by
  have read : number tooLarge = some 2147483647 := by decide +kernel
  refine ⟨by decide +kernel, by decide +kernel, by decide +kernel, ?_, ?_⟩
  · rintro ⟨n, found, beside⟩
    rw [read, Option.some.injEq] at found
    subst found
    unfold BesideTable at beside
    omega
  · have missing : names h tooLarge = none := by
      rw [names, if_neg (by decide +kernel), read]
      show numbered h 2147483647 = none
      rw [numbered, if_neg (by omega)]
    rw [answer, if_neg (by decide +kernel), missing, ite_self]

def followed (line : Str) (n : Nat) (rest : Str) : Memory :=
  fun x => if x < n then line.getD x 0 else rest.getD (x - n) 0

theorem followed_line {line : Str} (clean : 0 ∉ line) {n : Nat} (apart : line.length < n)
    (rest : Str) : CStr (followed line n rest) 0 line :=
  cstr_getD clean fun i bound => by rw [Nat.zero_add, followed, if_pos (by omega)]

theorem followed_rest (line : Str) (n : Nat) (rest : Str) (clean : 0 ∉ rest) :
    CStr (followed line n rest) n rest :=
  cstr_getD clean fun i bound => by rw [followed, if_neg (by omega), Nat.add_sub_cancel_left]

theorem Line.start {buf : Nat} {mem : Memory} {line : Str} (held : CStr mem buf line)
    (room : line.length < maxLineSize) :
    Line buf mem mem ([] ++ line) line.length :=
  ⟨held, room, Nat.le_refl _, fun x low high => by
    rw [Nat.le_antisymm high low]; exact held.ended, fun _ _ => rfl⟩

theorem expands_finish (cmds : List Str) (line : Str) (short : ∀ cmd ∈ cmds, cmd.length < maxLineSize)
    (clean : ∀ cmd ∈ cmds, 0 ∉ cmd) (few : (kept cmds).length < 2^31 - 1)
    (room : line.length < maxLineSize) (nonzero : 0 ∉ line) :
    Expands cmds line ↔ (finish (kept cmds) (parseLine 0 false line).tail
      (parseLine 0 false line).closed line.length []
      (parseLine 0 false line).bangs).Good (expanded (kept cmds) line) := by
  have ends : ∀ {mem buf}, CStr mem buf line → ∀ fuel ≥ 1024,
    Ends buf mem tooLarge (expand (typed cmds) fuel mem buf)
      (finish (kept cmds) (parseLine 0 false line).tail (parseLine 0 false line).closed line.length
          [] (parseLine 0 false line).bangs) := by
    intro mem buf held fuel enough
    have count := bangs_length (parseLine 0 false line).tail (parseLine 0 false line).bangs
    rw [parseLine_unread] at count
    rw [maxLineSize] at room
    exact loop_ends (typed_holds cmds) (by omega) (fun cmd member => short cmd (kept_mem member).1)
      (fun cmd member => clean cmd (kept_mem member).1) (tooLarge_unknown few) enough
        (parseLine 0 false line).bangs
      (Line.start held room) rfl (by omega)
  constructor
  · intro expands
    have ran : ∀ n > line.length, ∃ mem, CStr mem 0 (expanded (kept cmds) line) ∧
        Ends 0 (followed line n (33 :: tooLarge)) tooLarge (some mem)
          (finish (kept cmds) (parseLine 0 false line).tail (parseLine 0 false line).closed
              line.length [] (parseLine 0 false line).bangs) := by
      intro n apart
      have there := followed_line nonzero apart (33 :: tooLarge)
      obtain ⟨enough, run⟩ := expands _ 0 there
      obtain ⟨mem, ran, held⟩ := run (max enough 1024) (Nat.le_max_left _ _)
      exact ⟨mem, held, ran ▸ ends there _ (Nat.le_max_right _ _)⟩
    obtain ⟨mem, held, end'⟩ := ran (line.length + 1) (Nat.lt_succ_self _)
    cases found : finish (kept cmds) (parseLine 0 false line).tail
        (parseLine 0 false line).closed line.length [] (parseLine 0 false line).bangs with
    | fault =>
      rw [found] at end'
      cases end'
    | missed =>
      rw [found] at end'
      obtain ⟨_, ⟨⟩, empty⟩ := end'
      exact held.unique empty
    | kept line' =>
      rw [found] at end'
      obtain ⟨_, ⟨⟩, left⟩ := end'
      exact left.unique held
    | past line' longest =>
      obtain ⟨grown, unclosed, whole⟩ := finish_past found
      obtain ⟨same, replaced', rfl⟩ := Option.map_eq_some_iff.mp whole
      have goal : expanded (kept cmds) line = [] ++ same := by
        rw [expanded, replaced']
        rfl
      by_cases longer : ([] ++ same : Str).length < longest
      · exact ⟨goal.symm, longer⟩
      · obtain ⟨mem, held, end'⟩ := ran (([] ++ same : Str).length + 1) (by omega)
        rw [found] at end'
        have behind := followed_rest line (([] ++ same : Str).length + 1) (33 :: tooLarge) (by decide +kernel)
        obtain ⟨_, ⟨⟩, empty⟩ := end'.2 (by omega) (by rwa [Nat.zero_add])
        have none : same = [] := goal.symm.trans (held.unique empty)
        have length := replaced_tail replaced'
        rw [none] at length
        exact absurd (List.length_eq_zero_iff.mp (Nat.le_zero.mp length)) (parseLine_closed unclosed)
  · intro good mem buf held
    refine ⟨1024, fun fuel enough => ?_⟩
    have run := ends held fuel enough
    revert run good
    cases finish (kept cmds) (parseLine 0 false line).tail (parseLine 0 false line).closed
        line.length [] (parseLine 0 false line).bangs with
    | fault => exact fun good => good.elim
    | missed => exact fun good run => (show expanded (kept cmds) line = [] from good) ▸ run
    | kept line' => exact fun good run => (show line' = expanded (kept cmds) line from good) ▸ run
    | past line' longest => exact fun good run => good.1 ▸ run.1 good.2

/-- Two commands that do not fit together in the buffer. -/
theorem two_too_long : ¬Expands [List.replicate 200 97] [33, 33, 32, 33, 33] := by
  have fault : finish (kept [List.replicate 200 97]) (parseLine 0 false [33, 33, 32, 33, 33]).tail
    (parseLine 0 false [33, 33, 32, 33, 33]).closed
      ([33, 33, 32, 33, 33] : Str).length [] (parseLine 0 false [33, 33, 32, 33, 33]).bangs =
        .fault := by decide +kernel
  rw [expands_finish _ _ (by decide +kernel) (by decide +kernel) (by decide +kernel) (by decide)
    (by decide), fault]
  exact id

/-- Expansion does what it should, whatever lies behind the line, exactly if the line can be expanded. -/
theorem expands_iff (cmds : List Str) (line : Str) (short : ∀ cmd ∈ cmds, cmd.length < maxLineSize)
    (clean : ∀ cmd ∈ cmds, 0 ∉ cmd)
    (few : (kept cmds).length < 2^31 - 1) (room : line.length < maxLineSize) (nonzero : 0 ∉ line) :
    Expands cmds line ↔ Expandable (kept cmds) (parseLine 0 false line) := by
  have words : ∀ cmd ∈ kept cmds, cmd ≠ [] := by
    rintro cmd member rfl
    exact Bool.noConfusion (kept_mem member).2
  exact (expands_finish cmds line short clean few room nonzero).trans (expandable_iff words room).symm

theorem prefix_expands : Expands [[108, 115]] [33, 108] :=
  (expands_iff [[108, 115]] [33, 108] (by decide) (by decide) (by decide) (by decide) (by decide)).mpr
    ⟨by decide +kernel, by decide +kernel, by decide +kernel, by decide +kernel⟩

end Embryo.Shell
