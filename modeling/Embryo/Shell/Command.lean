import Embryo.Shell.Words

namespace Embryo.Shell

open Embryo.Machine

def maxCmdInLine : Nat := 10

def maxCmdArgNum : Nat := 20

/-- `*p <= ' '`, where a `char` is signed. -/
def control (c : UInt8) : Bool := c ≤ 32 || 128 ≤ c

/-- The loop of `argparser` over a word. A quote without its partner ends the word as the end of the
    string does. -/
def argWord : Nat → Memory → Nat → Option (Memory × Nat)
  | 0, _, _ => none
  | fuel + 1, mem, p =>
    let c := mem p
    if c ≠ 0 ∧ control c = false then
      if quote c then
        match strdchr fuel mem p with
        | none => none
        | some mem =>
          match skip (· ≠ c) mem fuel p with
          | none => none
          | some p =>
            if mem p = 0 then some (mem, p)
            else
              match strdchr fuel mem p with
              | none => none
              | some mem => argWord fuel mem p
      else argWord fuel mem (p + 1)
    else some (mem, p)

def argparser (fuel : Nat) : Nat → Memory → Nat → List Nat → Option (List Nat × Memory)
  | 0, mem, _, av => some (av, mem)
  | room + 1, mem, p, av =>
    match skip control mem fuel p with
    | none => none
    | some p =>
      if mem p = 0 then some (av, mem)
      else
        match argWord fuel mem p with
        | none => none
        | some (mem, q) =>
          if mem q = 0 then some (av ++ [p], mem)
          else argparser fuel room (Function.update mem q 0) (q + 1) (av ++ [p])

structure Cmd where
  cmdname : Str
  cmdexec : Option (List Str → Int)
  minac : Nat
  maxac : Nat
  disable : Bool

inductive Outcome
  | notFound
  | notEnough
  | tooMany
  | noHandler
  | ran (state : Int)
deriving DecidableEq

def Outcome.state : Outcome → Int
  | ran state => state
  | _ => -2

/-- The search for a command in the groups of `cmds_list`, and its call. -/
def dispatch (cmds : List (List Cmd)) (argv : List Str) : Outcome :=
  match cmds.findSome? (·.find? fun cp => argv.head? = some cp.cmdname) with
  | none => .notFound
  | some cp =>
    if cp.disable then .notFound
    else
      match cp.cmdexec with
      | none => .noHandler
      | some exec =>
        if argv.length < cp.minac then .notEnough
        else if argv.length > cp.maxac then .tooMany
        else .ran (exec argv)

/-- The first loop of `do_cmd`, with the commands noted so far, or none of them where a quote is
    unbalanced. -/
def splitLine : Nat → Memory → Nat → List Nat → Option (Option (List Nat) × Memory)
  | 0, _, _, _ => none
  | fuel + 1, mem, p, list =>
    let c := mem p
    if c = 0 then some (some list, mem)
    else if quote c then
      match skip (· ≠ c) mem fuel (p + 1) with
      | none => none
      | some p => if mem p = 0 then some (none, mem) else splitLine fuel mem (p + 1) list
    else if c = 59 then
      let mem := Function.update mem p 0
      if list.length ≥ maxCmdInLine then some (some list, mem)
        else splitLine fuel mem (p + 1) (list ++ [p + 1])
    else splitLine fuel mem (p + 1) list

/-- The second loop of `do_cmd`, with the argument vectors handed on and what came of them. -/
def runLine (fuel : Nat) (cmds : List (List Cmd)) : List Nat → Memory → Option (List (List Str × Outcome))
  | [], _ => some []
  | cmd :: rest, mem =>
    match argparser fuel maxCmdArgNum mem cmd [] with
    | none => none
    | some (av, mem) =>
      match av.mapM (fetch mem fuel), runLine fuel cmds rest mem with
      | some argv, some later => some (if av = [] then later else (argv, dispatch cmds argv) :: later)
      | _, _ => none

def doCmd (fuel : Nat) (cmds : List (List Cmd)) (mem : Memory) (cmd : Option Nat) :
    Option (Int × List (List Str × Outcome)) :=
  match cmd with
  | none => some (-1, [])
  | some p =>
    match fetch mem fuel p with
    | none => none
    | some line =>
      if strempty line then some (-1, [])
      else
        match splitLine fuel mem p [p] with
        | none => none
        | some (none, _) => some (-1, [])
        | some (some list, mem) =>
          match runLine fuel cmds list mem with
          | none => none
          | some ran => some ((ran.getLast?.map (·.2.state)).getD (-1), ran)

section

variable {mem : Memory} {p fuel : Nat} {s : Str} {l : Marked}

theorem control_ascii {c : UInt8} (ascii : c < 128) : control c = decide (c ≤ 32) := by
  have low : ¬ 128 ≤ c := by simpa using ascii
  simp [control, low]

theorem quote_nonzero {c : UInt8} (opens : quote c = true) : c ≠ 0 := by
  rintro rfl
  exact absurd opens (by decide)

theorem quote_control {c : UInt8} (opens : quote c = true) : control c = false := by
  have cases : c = 39 ∨ c = 34 := by simpa [quote] using opens
  rcases cases with rfl | rfl <;> decide

theorem CStr.to_partner {q : UInt8} {a : Str} (held : CStr mem p (a ++ q :: s)) (clear : q ∉ a)
    (fuel : Nat) (enough : (a ++ q :: s).length < fuel) : skip (· ≠ q) mem fuel p = some (p + a.length) := by
  apply held.skip _ _ _ enough
  · intro c member
    rw [decide_eq_true_eq]
    rintro rfl
    exact clear member
  · rintro c rest ⟨⟩
    simp

theorem text_quoted (q : UInt8) (a : Str) (w : Marked) :
    text ((q, .mark) :: (a.map (·, .quoted) ++ (q, .mark) :: w)) = a ++ text w := by
  unfold text
  rw [List.filter_cons_of_neg (by simp), List.filter_append, List.filter_cons_of_neg (by simp),
    List.map_append,
    List.filter_eq_self.mpr, List.map_map]
  · congr 1
    exact List.map_id _
  · intro x member
    obtain ⟨c, _, rfl⟩ := List.mem_map.mp member
    rfl

theorem argWord_lexed (lexed : Lexed s l) (ascii : ∀ c ∈ s, c < 128) (held : CStr mem p s)
    (fuel : Nat) (enough : s.length + 1 < fuel) :
    ∃ mem', argWord fuel mem p = some (mem', p + (text (l.takeWhile (!blank ·))).length) ∧
      CStr mem' p (text (l.takeWhile (!blank ·)) ++ raw (l.dropWhile (!blank ·))) ∧
      (∀ x < p, mem' x = mem x) ∧ ∀ x, p + s.length < x → mem' x = mem x := by
  obtain ⟨fuel, rfl⟩ : ∃ rest, fuel = rest + 1 := ⟨fuel - 1, by omega⟩
  induction lexed generalizing mem p fuel with
  | nil =>
    have ended : mem p = 0 := held
    refine ⟨mem, ?_, held, fun _ _ => rfl, fun _ _ => rfl⟩
    rw [argWord, ended, if_neg (fun both => both.1 rfl)]
    rfl
  | @plain c other s l rest ih =>
    obtain ⟨first, nonzero, tail⟩ := held
    rw [List.length_cons] at enough ⊢
    obtain ⟨fuel, rfl⟩ : ∃ rest, fuel = rest + 1 := ⟨fuel - 1, by omega⟩
    rw [argWord, first]
    by_cases small : c ≤ 32
    · have stop : blank (c, .plain) = true := by simp [blank, small]
      rw [if_neg (by simp [control_ascii (ascii c List.mem_cons_self), small]),
        List.takeWhile_cons_of_neg (by simp [stop]), List.dropWhile_cons_of_neg (by simp [stop])]
      refine ⟨mem, rfl, ?_, fun _ _ => rfl, fun _ _ => rfl⟩
      rw [(Lexed.plain c other rest).raw]
      exact ⟨first, nonzero, tail⟩
    · have on : blank (c, .plain) = false := by simp [blank, small]
      obtain ⟨mem', done, left, below, above⟩ :=
        ih (fun d member => ascii d (List.mem_cons_of_mem c member)) tail fuel (by omega)
      rw [if_pos ⟨nonzero, by simp [control_ascii (ascii c List.mem_cons_self), small]⟩,
        if_neg (by simp [other]), done,
        List.takeWhile_cons_of_pos (by simp [on]), List.dropWhile_cons_of_pos (by simp [on])]
      have spelled : text ((c, .plain) :: l.takeWhile (!blank ·)) = c :: text (l.takeWhile (!blank ·)) := rfl
      rw [spelled, List.length_cons]
      refine ⟨mem', ?_, ⟨?_, nonzero, left⟩, ?_, ?_⟩
      · congr 2
        omega
      · rw [below p (by omega), first]
      · exact fun x less => below x (by omega)
      · exact fun x more => above x (by omega)
  | @quoted q opens a clear s l rest ih =>
    have apart := quoted_apart blank_plain q a
    have spelled := text_quoted q a (l.takeWhile (!blank ·))
    rw [quoted_split] at spelled
    have length : (q :: (a ++ q :: s)).length = a.length + s.length + 2 := by
      simp only [List.length_cons, List.length_append]
      omega
    have first : mem p = q := held.1
    rw [length] at enough ⊢
    obtain ⟨fuel, rfl⟩ : ∃ rest, fuel = rest + 1 := ⟨fuel - 1, by omega⟩
    obtain ⟨mem₁, opened, inside, below₁, above₁⟩ :=
      held.strdchr (fuel + 1) (by rw [List.length_cons] at length; omega)
    obtain ⟨_, _, partner⟩ := cstr_append.mp inside
    have found : mem₁ (p + a.length) = q := partner.1
    obtain ⟨mem₂, closed, after, below₂, above₂⟩ := partner.strdchr (fuel + 1) (by omega)
    have later : ∀ c ∈ s, c < 128 := fun c member => ascii c (by simp [member])
    obtain ⟨mem', done, left, below, above⟩ := ih later after fuel (by omega)
    rw [argWord, first, if_pos ⟨quote_nonzero opens, quote_control opens⟩, if_pos opens, opened,
      quoted_split, List.takeWhile_append_of_pos (fun x member => by simp [apart x member]),
      List.dropWhile_append_of_pos (fun x member => by simp [apart x member]), spelled]
    simp only [CStr.to_partner inside clear (fuel + 1)
      (by simp only [List.length_append, List.length_cons]; omega)]
    rw [found, if_neg (quote_nonzero opens), closed]
    refine ⟨mem', ?_, ?_, ?_, ?_⟩
    · simp only [done, List.length_append, Nat.add_assoc]
    · rw [List.append_assoc]
      obtain ⟨copied, nonzero, _⟩ := cstr_append.mp inside
      apply cstr_append.mpr
      refine ⟨?_, nonzero, left⟩
      rw [← copied, bytes_length]
      apply bytes_congr
      intro x low high
      rw [below x high, below₂ x high]
    · intro x less
      rw [below x (by omega), below₂ x (by omega), below₁ x less]
    · intro x more
      rw [above x (by omega), above₂ x (by omega),
        above₁ x (by simp only [List.length_append, List.length_cons]; omega)]

theorem text_length_le (w : Marked) : (text w).length ≤ w.length := by
  rw [text, List.length_map]
  exact List.length_filter_le _ _

theorem argparser_lexed {room : Nat} (lexed : Lexed s l) (ascii : ∀ c ∈ s, c < 128) (held : CStr mem p s)
    (enough : s.length + 1 < fuel) (few : (words l).length ≤ room) (av : List Nat) :
    ∃ new mem', argparser fuel room mem p av = some (av ++ new, mem') ∧
      List.Forall₂ (fun a w => CStr mem' a (text w)) new (words l) ∧
      (∀ x < p, mem' x = mem x) ∧ ∀ x, p + s.length < x → mem' x = mem x := by
  induction room generalizing s l mem p av with
  | zero =>
    rw [List.length_eq_zero_iff.mp (Nat.le_zero.mp few)]
    exact ⟨[], mem, by rw [List.append_nil]; rfl, .nil, fun _ _ => rfl, fun _ _ => rfl⟩
  | succ room ih =>
    have lexed' := lexed.skip_blanks
    rw [← words_skip] at few ⊢
    rw [← List.takeWhile_append_dropWhile (p := (· ≤ 32)) (l := s)] at held enough ascii ⊢
    have head : ∀ c rest, s.dropWhile (· ≤ 32) = c :: rest → control c = false := by
      intro c rest found
      have stop := List.head?_dropWhile_not (· ≤ 32) s
      rw [found] at stop
      rw [control_ascii (ascii c (by simp [found]))]
      simpa using stop
    have blanks : ∀ c ∈ s.takeWhile (· ≤ 32), control c = true := by
      intro c member
      rw [control_ascii (ascii c (List.mem_append_left _ member))]
      simpa using List.mem_takeWhile_imp member
    have skipped := held.skip blanks head fuel (by omega)
    have apart : ∀ x rest, l.dropWhile blank = x :: rest → blank x = false := by
      intro x rest found
      have stop := List.head?_dropWhile_not blank l
      rw [found] at stop
      simpa using stop
    obtain ⟨_, _, held⟩ := cstr_append.mp held
    rw [List.length_append] at enough ⊢
    rw [argparser, skipped]
    generalize s.takeWhile (· ≤ 32) = front at *
    generalize s.dropWhile (· ≤ 32) = s' at *
    generalize l.dropWhile blank = l' at *
    simp only
    cases l' with
    | nil =>
      have ended : mem (p + front.length) = 0 := by
        cases lexed'
        exact held
      rw [ended, if_pos rfl]
      exact ⟨[], mem, by rw [List.append_nil], .nil, fun _ _ => rfl, fun _ _ => rfl⟩
    | cons x l' =>
      have whole := lexed'.raw
      have started : mem (p + front.length) ≠ 0 := by
        rw [← whole] at held
        exact fun ended => held.2.1 (held.1.symm.trans ended)
      obtain ⟨mem₁, worded, spelled, below₁, above₁⟩ :=
        argWord_lexed lexed' (fun c member => ascii c (List.mem_append_right _ member)) held fuel (by omega)
      rw [if_neg started, worded]
      have rest := lexed'.rest_of_word
      rw [words_word (apart x l' rfl)] at few ⊢
      have cut := congrArg (fun l => (raw l).length)
        (List.takeWhile_append_dropWhile (p := (!blank ·)) (l := x :: l'))
      have shrunk := text_length_le ((x :: l').takeWhile (!blank ·))
      simp only [raw, List.map_append, List.length_append, List.length_map] at cut
      have stop : ∀ y rest, (x :: l').dropWhile (!blank ·) = y :: rest → blank y = true := by
        intro y rest found
        have stop := List.head?_dropWhile_not (!blank ·) (x :: l')
        rw [found] at stop
        simpa using stop
      obtain ⟨letters, clear, after⟩ := cstr_append.mp spelled
      have within : ∀ c ∈ raw ((x :: l').dropWhile (!blank ·)), c ∈ s' := by
        rw [← whole]
        exact fun c member => (List.dropWhile_sublist _).map Prod.fst |>.mem member
      have length : (x :: l').length = s'.length := by rw [← whole, raw, List.length_map]
      generalize (x :: l').takeWhile (!blank ·) = w at *
      generalize (x :: l').dropWhile (!blank ·) = l₁ at *
      simp only
      cases l₁ with
      | nil =>
        have ended : mem₁ (p + front.length + (text w).length) = 0 := after
        rw [ended, if_pos rfl]
        refine ⟨[p + front.length], mem₁, rfl, .cons ?_ .nil, fun x less => below₁ x (by omega),
          fun x more => above₁ x (by omega)⟩
        rwa [raw, List.map_nil, List.append_nil] at spelled
      | cons y l₂ =>
        have separates := stop y l₂ rfl
        have role := blank_plain y separates
        have nonzero : mem₁ (p + front.length + (text w).length) ≠ 0 :=
          fun ended => after.2.1 (after.1.symm.trans ended)
        have tail : Lexed (raw l₂) l₂ := by
          obtain ⟨c, role'⟩ := y
          obtain rfl : role' = .plain := role
          exact rest.tail
        rw [List.length_cons] at cut
        rw [words_blank separates, List.length_cons] at few
        have small : (raw l₂).length = l₂.length := List.length_map _
        rw [if_neg nonzero]
        obtain ⟨new, mem', done, strings, below, above⟩ :=
          @ih (Function.update mem₁ (p + front.length + (text w).length) 0)
            (p + front.length + (text w).length + 1)
            (raw l₂) l₂ tail (fun c member =>
              ascii c (List.mem_append_right _ (within c (List.mem_cons_of_mem _ member))))
            (after.2.2.congr fun x low _ => Function.update_of_ne (by omega) _ _) (by omega) (by omega)
            (av ++ [p + front.length])
        rw [done, words_blank separates]
        refine ⟨(p + front.length) :: new, mem', by rw [List.append_assoc]; rfl, .cons ?_ strings, ?_, ?_⟩
        · rw [← List.append_nil (text w)]
          apply cstr_append.mpr
          refine ⟨?_, clear, ?_⟩
          · rw [← letters, bytes_length]
            apply bytes_congr
            intro x low high
            rw [below x (by omega), Function.update_of_ne (by omega)]
          · show mem' _ = 0
            rw [below _ (by omega), Function.update_self]
        · intro x less
          rw [below x (by omega), Function.update_of_ne (by omega), below₁ x (by omega)]
        · intro x more
          rw [above x (by omega), Function.update_of_ne (by omega), above₁ x (by omega)]

def starts : Nat → List Str → List Nat
  | _, [] => []
  | p, s :: rest => p :: starts (p + s.length + 1) rest

def Laid (mem : Memory) : Nat → List Str → Prop
  | _, [] => True
  | p, s :: rest => CStr mem p s ∧ Laid mem (p + s.length + 1) rest

theorem Laid.congr {mem' : Memory} {strings : List Str} (laid : Laid mem p strings)
    (same : ∀ x, p ≤ x → mem' x = mem x) :
    Laid mem' p strings := by
  induction strings generalizing p with
  | nil => exact True.intro
  | cons s rest ih =>
    exact ⟨laid.1.congr fun x low _ => same x low, ih laid.2 fun x low => same x (by omega)⟩

theorem Laid.lengthen {a : Str} {segs : List Marked} {w : Marked}
    (laid : Laid mem (p + a.length) (segs.map raw))
    (some : segs ≠ []) (spelled : bytes mem p a.length = a) (clear : 0 ∉ a) (letters : raw w = a) :
    Laid mem p ((segs.modifyHead (w ++ ·)).map raw) ∧
      (starts p ((segs.modifyHead (w ++ ·)).map raw)).tail = (starts (p + a.length) (segs.map raw)).tail := by
  cases segs with
  | nil => exact absurd rfl some
  | cons h rest =>
    have whole : raw (w ++ h) = a ++ raw h := by rw [← letters, raw, List.map_append]; rfl
    have next : p + (raw (w ++ h)).length + 1 = p + a.length + (raw h).length + 1 := by
      rw [whole, List.length_append]
      omega
    refine ⟨⟨?_, ?_⟩, ?_⟩
    · rw [whole]
      exact cstr_append.mpr ⟨spelled, clear, laid.1⟩
    · rw [next]
      exact laid.2
    · show starts (p + (raw (w ++ h)).length + 1) (rest.map raw) =
        starts (p + a.length + (raw h).length + 1) (rest.map raw)
      rw [next]

theorem splitLine_lexed (lexed : Lexed s l) (held : CStr mem p s) (enough : s.length + 1 < fuel)
    (list : List Nat) (few : list.length + (segments l).length ≤ maxCmdInLine + 1) :
    ∃ mem', splitLine fuel mem p list = some (some (list ++ (starts p ((segments l).map raw)).tail), mem') ∧
      Laid mem' p ((segments l).map raw) ∧ ∀ x < p, mem' x = mem x := by
  obtain ⟨fuel, rfl⟩ : ∃ rest, fuel = rest + 1 := ⟨fuel - 1, by omega⟩
  induction lexed generalizing mem p fuel list with
  | nil =>
    have ended : mem p = 0 := held
    refine ⟨mem, ?_, ⟨held, True.intro⟩, fun _ _ => rfl⟩
    rw [splitLine, ended, if_pos rfl]
    show _ = some (some (list ++ []), mem)
    rw [List.append_nil]
  | @plain c other s l rest ih =>
    obtain ⟨first, nonzero, tail⟩ := held
    rw [List.length_cons] at enough
    obtain ⟨fuel, rfl⟩ : ∃ rest, fuel = rest + 1 := ⟨fuel - 1, by omega⟩
    rw [splitLine, first, if_neg nonzero, if_neg (by simp [other])]
    by_cases separates : c = 59
    · subst separates
      rw [segments_semicolon, List.length_cons] at few
      have more := List.length_pos_iff.mpr (segments_ne_nil l)
      have moved : CStr (Function.update mem p 0) (p + 1) s := tail.congr fun x low _ =>
        Function.update_of_ne (by omega) _ _
      obtain ⟨mem', done, laid, below⟩ := ih moved (list ++ [p + 1])
        (by rw [List.length_append, List.length_singleton]; omega) fuel (by omega)
      rw [if_pos rfl, segments_semicolon]
      simp only [if_neg (show ¬ list.length ≥ maxCmdInLine by omega), done]
      refine ⟨mem', ?_, ⟨?_, laid⟩, ?_⟩
      · rw [List.append_assoc]
        congr 3
        cases h : segments l with
        | nil => exact absurd h (segments_ne_nil l)
        | cons seg segs => rfl
      · show mem' p = 0
        rw [below p (by omega), Function.update_self]
      · intro x less
        rw [below x (by omega), Function.update_of_ne (by omega)]
    · have apart : ∀ x ∈ [((c, .plain) : UInt8 × Role)], semicolon x = false := by simp [semicolon, separates]
      have same : segments ((c, .plain) :: l) = (segments l).modifyHead ([(c, .plain)] ++ ·) :=
        segments_prefix apart l
      rw [same, List.length_modifyHead] at few
      obtain ⟨mem', done, laid, below⟩ := ih tail _ few fuel (by omega)
      have spelled : bytes mem' p 1 = [c] := by rw [bytes, bytes, below p (by omega), first]
      obtain ⟨laid, later⟩ := Laid.lengthen (a := [c]) (w := [(c, .plain)]) laid (segments_ne_nil l) spelled
        (by simpa using Ne.symm nonzero) rfl
      rw [if_neg separates, done, same, later]
      exact ⟨mem', rfl, laid, fun x less => below x (by omega)⟩
  | @quoted q opens a clear s l rest ih =>
    have length : (q :: (a ++ q :: s)).length = a.length + s.length + 2 := by
      simp only [List.length_cons, List.length_append]
      omega
    rw [length] at enough
    obtain ⟨fuel, rfl⟩ : ∃ rest, fuel = rest + 1 := ⟨fuel - 1, by omega⟩
    have first : mem p = q := held.1
    have inner := held.2.2
    have found := CStr.to_partner inner clear (fuel + 1)
      (by simp only [List.length_append, List.length_cons]; omega)
    have whole : q :: (a ++ q :: s) = (q :: (a ++ [q])) ++ s := by simp
    have width : (q :: (a ++ [q])).length = a.length + 2 := by simp
    have place : p + (q :: (a ++ [q])).length = p + 1 + a.length + 1 := by omega
    rw [whole, cstr_append, place] at held
    obtain ⟨spelled, nonzero, after⟩ := held
    have closing : mem (p + 1 + a.length) = q := (cstr_append.mp inner).2.2.1
    have same := segments_prefix (quoted_apart semicolon_plain q a) l
    rw [← quoted_split] at same
    rw [same, List.length_modifyHead] at few
    obtain ⟨mem', done, laid, below⟩ := ih after _ few fuel (by omega)
    rw [splitLine, first, if_neg (quote_nonzero opens), if_pos opens, found]
    simp only [closing, if_neg (quote_nonzero opens), done]
    have letters : raw ((q, .mark) :: (a.map (·, .quoted) ++ [(q, .mark)])) = q :: (a ++ [q]) := by
      rw [raw, List.map_cons, List.map_append, List.map_map]
      congr 2
      exact List.map_id _
    have again : bytes mem' p (q :: (a ++ [q])).length = q :: (a ++ [q]) := by
      rw [← spelled, bytes_length]
      exact bytes_congr fun x _ high => below x (by omega)
    rw [← place] at laid
    obtain ⟨laid, later⟩ := Laid.lengthen laid (segments_ne_nil l) again nonzero letters
    rw [same, later, place]
    exact ⟨mem', rfl, laid, fun x less => below x (by omega)⟩

theorem splitLine_unbalanced (lexed : Lexed s l) {q : UInt8} {b : Str} (opens : quote q = true)
    (alone : q ∉ b) (held : CStr mem p (s ++ q :: b)) (enough : (s ++ q :: b).length + 1 < fuel)
    (list : List Nat) (few : list.length + (segments l).length ≤ maxCmdInLine + 1) :
    ∃ mem', splitLine fuel mem p list = some (none, mem') := by
  obtain ⟨fuel, rfl⟩ : ∃ rest, fuel = rest + 1 := ⟨fuel - 1, by omega⟩
  induction lexed generalizing mem p fuel list with
  | nil =>
    obtain ⟨first, nonzero, tail⟩ := held
    rw [List.nil_append, List.length_cons] at enough
    rw [← List.append_nil b] at tail enough
    have skipped := @CStr.skip _ _ (· ≠ q) _ _ tail (by
      intro c member
      rw [decide_eq_true_eq]
      rintro rfl
      exact alone member) nofun fuel (by omega)
    have ended : mem (p + 1 + b.length) = 0 := (cstr_append.mp tail).2.2
    rw [splitLine, first, if_neg nonzero, if_pos opens, skipped]
    simp only [ended, if_true]
    exact ⟨mem, rfl⟩
  | @plain c other s l rest ih =>
    obtain ⟨first, nonzero, tail⟩ := held
    rw [List.cons_append, List.length_cons] at enough
    obtain ⟨fuel, rfl⟩ : ∃ rest, fuel = rest + 1 := ⟨fuel - 1, by omega⟩
    rw [splitLine, first, if_neg nonzero, if_neg (by simp [other])]
    by_cases separates : c = 59
    · subst separates
      rw [segments_semicolon, List.length_cons] at few
      have more := List.length_pos_iff.mpr (segments_ne_nil l)
      rw [if_pos rfl]
      simp only [if_neg (show ¬ list.length ≥ maxCmdInLine by omega)]
      apply ih _ _ _ fuel (by omega)
      · exact tail.congr fun x low _ => Function.update_of_ne (by omega) _ _
      · rw [List.length_append, List.length_singleton]
        omega
    · have apart : ∀ x ∈ [((c, .plain) : UInt8 × Role)], semicolon x = false := by simp [semicolon, separates]
      have same : segments ((c, .plain) :: l) = (segments l).modifyHead ([(c, .plain)] ++ ·) :=
        segments_prefix apart l
      rw [same, List.length_modifyHead] at few
      rw [if_neg separates]
      exact ih tail _ few fuel (by omega)
  | @quoted q' opens' a clear s l rest ih =>
    have shape : q' :: (a ++ q' :: s) ++ q :: b = q' :: (a ++ q' :: (s ++ q :: b)) := by simp
    rw [shape] at held enough
    rw [List.length_cons, List.length_append, List.length_cons] at enough
    obtain ⟨fuel, rfl⟩ : ∃ rest, fuel = rest + 1 := ⟨fuel - 1, by omega⟩
    have first : mem p = q' := held.1
    have inner := held.2.2
    have found := CStr.to_partner inner clear (fuel + 1)
      (by rw [List.length_append, List.length_cons]; omega)
    obtain ⟨_, _, partner⟩ := cstr_append.mp inner
    have closing : mem (p + 1 + a.length) = q' := partner.1
    rw [quoted_split, segments_prefix (quoted_apart semicolon_plain q' a) l, List.length_modifyHead] at few
    rw [splitLine, first, if_neg (quote_nonzero opens'), if_pos opens', found]
    simp only [closing, if_neg (quote_nonzero opens')]
    exact ih partner.2.2 _ few fuel (by omega)

theorem fetch_all {av : List Nat} {ws : List Marked}
    (strings : List.Forall₂ (fun a w => CStr mem a (text w)) av ws)
    (fuel : Nat) (short : ∀ w ∈ ws, (text w).length < fuel) :
    av.mapM (fetch mem fuel) = some (ws.map text) := by
  induction strings with
  | nil => rfl
  | cons first _ ih =>
    rw [List.mapM_cons, first.fetch fuel (short _ List.mem_cons_self), ih fun w member =>
      short w (List.mem_cons_of_mem _ member)]
    rfl

theorem words_length_le {w : Marked} (member : w ∈ words l) : (text w).length ≤ l.length :=
  (text_length_le w).trans (splitOnP_sublist (List.mem_of_mem_filter member)).length_le

theorem runLine_laid (cmds : List (List Cmd)) {segs : List Marked}
    (each : ∀ seg ∈ segs, Lexed (raw seg) seg ∧ (∀ c ∈ raw seg, c < 128) ∧ (raw seg).length + 1 < fuel ∧
      (words seg).length ≤ maxCmdArgNum) (laid : Laid mem p (segs.map raw)) :
    runLine fuel cmds (starts p (segs.map raw)) mem =
      some (((segs.map words).filter (· ≠ [])).map fun ws => (ws.map text, dispatch cmds (ws.map text))) := by
  induction segs generalizing mem p with
  | nil => rfl
  | cons seg segs ih =>
    obtain ⟨lexed, ascii, enough, few⟩ := each seg List.mem_cons_self
    obtain ⟨new, mem', done, strings, _, above⟩ := argparser_lexed lexed ascii laid.1 enough few []
    have later := ih (fun seg member => each seg (List.mem_cons_of_mem _ member))
      (laid.2.congr fun x low => above x (by omega))
    have length : (raw seg).length = seg.length := List.length_map _
    have fetched := fetch_all strings fuel fun w member => by
      have := words_length_le member
      omega
    rw [List.map_cons, starts, runLine, done]
    simp only [List.nil_append, fetched, later]
    cases found : words seg with
    | nil =>
      rw [found] at strings
      cases strings
      simp [found]
    | cons w ws =>
      rw [found] at strings
      cases strings
      simp [found]

end

/-- A line whose quote `q` has no partner in `b`, after a part `l` that is balanced. -/
structure Unbalanced (line : Str) (l : Marked) (q : UInt8) (b : Str) : Prop where
  before : ∃ a, line = a ++ q :: b ∧ roles none a = some l
  opens : quote q = true
  alone : q ∉ b

theorem doCmd_runs (cmds : List (List Cmd)) {mem : Memory} {p fuel : Nat} {line : Str}
    (held : CStr mem p line) (ascii : ∀ c ∈ line, c < 128) (enough : line.length + 1 < fuel) :
    (∀ l, roles none line = some l → (segments l).length ≤ maxCmdInLine →
      (∀ seg ∈ segments l, (words seg).length ≤ maxCmdArgNum) →
      ∃ state, doCmd fuel cmds mem (some p) = some (state, (commands l).map fun argv =>
        (argv, dispatch cmds argv))) ∧
    ∀ l q b, Unbalanced line l q b → (segments l).length ≤ maxCmdInLine →
      doCmd fuel cmds mem (some p) = some (-1, []) := by
  have fetched := held.fetch fuel (by omega)
  constructor
  · intro l found few short
    have lexed := roles_lexed found
    rw [doCmd, fetched]
    by_cases empty : strempty line = true
    · rw [lexed.commands_strempty empty]
      exact ⟨-1, if_pos empty⟩
    · simp only [if_neg empty]
      obtain ⟨mem', done, laid, _⟩ := splitLine_lexed lexed held enough [p]
        (by rw [List.length_singleton]; omega)
      have whole : [p] ++ (starts p ((segments l).map raw)).tail = starts p ((segments l).map raw) := by
        cases h : segments l with
        | nil => exact absurd h (segments_ne_nil l)
        | cons seg segs => rfl
      have each : ∀ seg ∈ segments l, Lexed (raw seg) seg ∧ (∀ c ∈ raw seg, c < 128) ∧
        (raw seg).length + 1 < fuel ∧
          (words seg).length ≤ maxCmdArgNum := by
        intro seg member
        have part := (splitOnP_sublist member).map Prod.fst
        have within : (raw seg).Sublist line := lexed.raw ▸ part
        have length := within.length_le
        exact ⟨segments_lexed lexed seg member, fun c inside => ascii c (within.mem inside), by
          omega, short seg member⟩
      rw [done, whole]
      simp only [runLine_laid cmds each laid]
      rw [commands, List.map_map]
      exact ⟨_, rfl⟩
  · rintro l q b ⟨⟨a, rfl, found⟩, opens, alone⟩ few
    have full : ¬ strempty (a ++ q :: b) = true := by
      intro empty
      have space := List.all_eq_true.mp empty q (by simp)
      exact quote_above opens (isspace_le space)
    obtain ⟨mem', done⟩ := splitLine_unbalanced (roles_lexed found) opens alone held enough [p]
      (by rw [List.length_singleton]; omega)
    rw [doCmd, fetched]
    simp only [if_neg full, done]

def placed (s : Str) : Memory := fun i => s.getD i 0

theorem placed_cstr {s : Str} (clear : 0 ∉ s) : CStr (placed s) 0 s := by
  have later : ∀ a b : Str, 0 ∉ b → CStr (placed (a ++ b)) a.length b := by
    intro a b
    induction b generalizing a with
    | nil =>
      intro _
      simp [CStr, placed]
    | cons c b ih =>
      intro clear
      rw [List.mem_cons, not_or] at clear
      have rest := ih (a ++ [c]) clear.2
      rw [List.append_assoc, List.length_append] at rest
      refine ⟨?_, Ne.symm clear.1, rest⟩
      simp [placed]
  exact later [] s clear

/-- `a 'b;c'` -/
def argument : Marked :=
  [(97, .plain), (32, .plain), (39, .mark), (98, .quoted), (59, .quoted), (99, .quoted), (39, .mark)]

theorem quoted_argument : commands argument = [[[97], [98, 59, 99]]] ∧
    ∃ state, doCmd 16 [] (placed (raw argument)) (some 0) =
      some (state, (commands argument).map fun argv => (argv, dispatch [] argv)) :=
  ⟨by
    decide, (@doCmd_runs [] _ 0 16 (raw argument) (placed_cstr (by decide))
      (by simp [raw, argument]) (by decide)).1
    argument (by decide) (by decide) (by decide)⟩

def tenCommands : Str := List.replicate 9 59 ++ [97, 59, 39]

theorem quote_beyond_ten : roles none tenCommands = none ∧
    doCmd 16 [[⟨[97], some fun _ => 0, 1, 19, false⟩]] (placed tenCommands)
    (some 0) = some (0, [([[97]], .ran 0)]) := by
  decide

end Embryo.Shell
