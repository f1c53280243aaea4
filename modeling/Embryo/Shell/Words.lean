import Embryo.Machine.CString

namespace Embryo.Shell

open Embryo.Machine

inductive Role
  | plain
  | quoted
  | mark
deriving DecidableEq

abbrev Marked := List (UInt8 × Role)

def quote (c : UInt8) : Bool := c == 39 || c == 34

/-- The roles of the characters, from inside a pair of quotes or from outside. An unbalanced line has none. -/
def roles : Option UInt8 → Str → Option Marked
  | none, [] => some []
  | some _, [] => none
  | none, c :: s =>
    if quote c then (roles (some c) s).map ((c, .mark) :: ·) else (roles none s).map ((c, .plain) :: ·)
  | some q, c :: s =>
    if c = q then (roles none s).map ((c, .mark) :: ·) else (roles (some q) s).map ((c, .quoted) :: ·)

def semicolon (x : UInt8 × Role) : Bool := x == (59, .plain)

def blank (x : UInt8 × Role) : Bool := x.2 == .plain && x.1 ≤ 32

def segments (l : Marked) : List Marked := l.splitOnP semicolon

def words (l : Marked) : List Marked := (l.splitOnP blank).filter (· ≠ [])

def text (w : Marked) : Str := (w.filter (·.2 ≠ .mark)).map Prod.fst

def raw (l : Marked) : Str := l.map Prod.fst

def commands (l : Marked) : List (List Str) := (((segments l).map words).filter (· ≠ [])).map (·.map text)

inductive Lexed : Str → Marked → Prop
  | nil : Lexed [] []
  | plain (c : UInt8) (other : quote c = false) {s : Str} {l : Marked} (rest : Lexed s l) :
      Lexed (c :: s) ((c, .plain) :: l)
  | quoted (q : UInt8) (opens : quote q = true) {a : Str} (clear : q ∉ a) {s : Str} {l : Marked}
      (rest : Lexed s l) :
      Lexed (q :: (a ++ q :: s)) ((q, .mark) :: (a.map (·, .quoted) ++ (q, .mark) :: l))

theorem roles_inside {q : UInt8} {s : Str} {l : Marked} (found : roles (some q) s = some l) :
    ∃ a b l', s = a ++ q :: b ∧ q ∉ a ∧ roles none b = some l' ∧
      l = a.map (·, .quoted) ++ (q, .mark) :: l' := by
  induction s generalizing l with
  | nil => cases found
  | cons c s ih =>
    rw [roles] at found
    by_cases closes : c = q
    · rw [if_pos closes] at found
      obtain ⟨l', inner, rfl⟩ := Option.map_eq_some_iff.mp found
      exact ⟨[], s, l', by rw [closes]; rfl, List.not_mem_nil, inner, by rw [closes]; rfl⟩
    · rw [if_neg closes] at found
      obtain ⟨l₁, inner, rfl⟩ := Option.map_eq_some_iff.mp found
      obtain ⟨a, b, l', rfl, clear, after, rfl⟩ := ih inner
      refine ⟨c :: a, b, l', rfl, ?_, after, rfl⟩
      intro member
      rcases List.mem_cons.mp member with same | member
      · exact closes same.symm
      · exact clear member

theorem roles_lexed {s : Str} {l : Marked} (found : roles none s = some l) : Lexed s l := by
  induction length : s.length using Nat.strong_induction_on generalizing s l with
  | _ n ih =>
    subst length
    cases s with
    | nil =>
      cases found
      exact .nil
    | cons c s =>
      rw [roles] at found
      by_cases opens : quote c = true
      · rw [if_pos opens] at found
        obtain ⟨l₁, inner, rfl⟩ := Option.map_eq_some_iff.mp found
        obtain ⟨a, b, l', rfl, clear, after, rfl⟩ := roles_inside inner
        apply Lexed.quoted c opens clear
        apply ih b.length _ after rfl
        simp only [List.length_cons, List.length_append]
        omega
      · rw [if_neg opens] at found
        obtain ⟨l₁, inner, rfl⟩ := Option.map_eq_some_iff.mp found
        exact Lexed.plain c (Bool.not_eq_true _ ▸ opens) (ih s.length (Nat.lt_succ_self _) inner rfl)

section

variable {s : Str} {l : Marked}

theorem Lexed.raw (lexed : Lexed s l) : raw l = s := by
  induction lexed with
  | nil => rfl
  | plain c other rest ih => exact congrArg (c :: ·) ih
  | quoted q opens clear rest ih =>
    unfold Shell.raw at ih ⊢
    rw [List.map_cons, List.map_append, List.map_cons, ih, List.map_map]
    congr 2
    exact List.map_id _

theorem Lexed.tail {c : UInt8} (lexed : Lexed s ((c, .plain) :: l)) : Lexed (Shell.raw l) l := by
  cases lexed with
  | plain _ _ rest => rwa [rest.raw]

theorem quote_above {c : UInt8} (opens : quote c = true) : ¬ c ≤ 32 := by
  have cases : c = 39 ∨ c = 34 := by simpa [quote] using opens
  rcases cases with rfl | rfl <;> decide

theorem quoted_split (q : UInt8) (a : Str) (l : Marked) :
    ((q, .mark) :: (a.map (·, .quoted) ++ (q, .mark) :: l) : Marked) =
      ((q, .mark) :: (a.map (·, .quoted) ++ [(q, .mark)]) : Marked) ++ l := by
  rw [List.cons_append, List.append_assoc, List.singleton_append]

theorem quoted_apart {sep : UInt8 × Role → Bool} (plain : ∀ x, sep x = true → x.2 = .plain)
    (q : UInt8) (a : Str) :
    ∀ x ∈ ((q, .mark) :: (a.map (·, .quoted) ++ [(q, .mark)]) : Marked), sep x = false := by
  intro x member
  cases separates : sep x with
  | false => rfl
  | true =>
    have role := plain x separates
    rcases List.mem_cons.mp member with rfl | member
    · cases role
    · rcases List.mem_append.mp member with member | member
      · obtain ⟨c, _, rfl⟩ := List.mem_map.mp member
        cases role
      · rw [List.mem_singleton.mp member] at role
        cases role

theorem semicolon_plain (x : UInt8 × Role) (separates : semicolon x = true) : x.2 = .plain := by
  have same : x = (59, .plain) := by simpa [semicolon] using separates
  rw [same]

theorem blank_plain (x : UInt8 × Role) (separates : blank x = true) : x.2 = .plain := by
  simp only [blank, Bool.and_eq_true, beq_iff_eq] at separates
  exact separates.1

theorem Lexed.skip_blanks (lexed : Lexed s l) :
    Lexed (s.dropWhile (· ≤ 32)) (l.dropWhile blank) := by
  induction lexed with
  | nil => exact .nil
  | plain c other rest ih =>
    by_cases small : c ≤ 32
    · rw [List.dropWhile_cons_of_pos (by simpa using small),
        List.dropWhile_cons_of_pos (by simp [blank, small])]
      exact ih
    · rw [List.dropWhile_cons_of_neg (by simpa using small),
        List.dropWhile_cons_of_neg (by simp [blank, small])]
      exact .plain c other rest
  | quoted q opens clear rest ih =>
    rw [List.dropWhile_cons_of_neg (by simpa using quote_above opens),
      List.dropWhile_cons_of_neg (by simp [blank])]
    exact .quoted q opens clear rest

theorem Lexed.rest_of_word (lexed : Lexed s l) :
    Lexed (Shell.raw (l.dropWhile (!blank ·))) (l.dropWhile (!blank ·)) := by
  induction lexed with
  | nil => exact .nil
  | plain c other rest ih =>
    by_cases small : blank (c, .plain) = true
    · rw [List.dropWhile_cons_of_neg (by simp [small])]
      rw [(Lexed.plain c other rest).raw]
      exact .plain c other rest
    · rw [List.dropWhile_cons_of_pos (by simpa using small)]
      exact ih
  | @quoted q opens a clear s l rest ih =>
    have apart := quoted_apart blank_plain q a
    rw [quoted_split, List.dropWhile_append_of_pos (fun x member => by simp [apart x member])]
    exact ih

end

theorem words_blank {x : UInt8 × Role} (separates : blank x = true) (l : Marked) :
    words (x :: l) = words l := by
  rw [words, List.splitOnP_cons_eq_if_modifyHead, if_pos separates]
  rfl

theorem words_skip (l : Marked) : words (l.dropWhile blank) = words l := by
  induction l with
  | nil => rfl
  | cons x l ih =>
    by_cases separates : blank x = true
    · rw [List.dropWhile_cons_of_pos separates, ih, words_blank separates]
    · rw [List.dropWhile_cons_of_neg separates]

theorem words_word {x : UInt8 × Role} (apart : blank x = false) (l : Marked) :
    words (x :: l) = (x :: l).takeWhile (!blank ·) :: words ((x :: l).dropWhile (!blank ·)) := by
  have word : ∀ y ∈ (x :: l).takeWhile (!blank ·), blank y = false := by
    intro y member
    simpa using List.mem_takeWhile_imp member
  have some : (x :: l).takeWhile (!blank ·) ≠ [] := by
    rw [List.takeWhile_cons_of_pos (by simp [apart])]
    exact List.cons_ne_nil _ _
  rcases left : (x :: l).dropWhile (!blank ·) with _ | ⟨y, rest⟩
  · have whole := List.takeWhile_append_dropWhile (p := (!blank ·)) (l := x :: l)
    rw [left, List.append_nil] at whole
    rw [whole] at word some ⊢
    rw [words, List.splitOnP_eq_singleton word, List.filter_cons_of_pos (by simp)]
    rfl
  · have whole := List.takeWhile_append_dropWhile (p := (!blank ·)) (l := x :: l)
    have separates : blank y = true := by
      have stop := List.head?_dropWhile_not (!blank ·) (x :: l)
      rw [left] at stop
      simpa using stop
    rw [left] at whole
    rw [words_blank separates]
    conv_lhs => rw [← whole]
    rw [words, List.splitOnP_append_cons_of_forall_mem word y separates,
      List.filter_cons_of_pos (by simpa using some)]
    rfl

theorem segments_prefix {w : Marked} (apart : ∀ x ∈ w, semicolon x = false) (l : Marked) :
    segments (w ++ l) = (segments l).modifyHead (w ++ ·) := by
  induction w with
  | nil =>
    rw [List.nil_append]
    cases segments l <;> rfl
  | cons x w ih =>
    have rest := ih fun y member => apart y (List.mem_cons_of_mem x member)
    unfold segments at rest ⊢
    rw [List.cons_append, List.splitOnP_cons_eq_if_modifyHead,
      if_neg (by simp [apart x List.mem_cons_self]), rest]
    cases l.splitOnP semicolon <;> rfl

theorem segments_semicolon (l : Marked) : segments ((59, .plain) :: l) = [] :: segments l := by
  rw [segments, List.splitOnP_cons_eq_if_modifyHead, if_pos (by decide)]
  rfl

theorem splitOnP_sublist {p : UInt8 × Role → Bool} {l w : Marked} (member : w ∈ l.splitOnP p) :
    w.Sublist l := by
  induction l generalizing w with
  | nil =>
    rw [List.mem_singleton.mp member]
    exact List.Sublist.refl _
  | cons x l ih =>
    rw [List.splitOnP_cons_eq_if_modifyHead] at member
    split at member
    · rcases List.mem_cons.mp member with rfl | member
      · exact List.nil_sublist _
      · exact (ih member).cons x
    · rcases whole : l.splitOnP p with _ | ⟨h, rest⟩
      · rw [whole] at member
        cases member
      · rw [whole] at ih member
        rcases List.mem_cons.mp member with rfl | member
        · exact (ih List.mem_cons_self).cons_cons x
        · exact (ih (List.mem_cons_of_mem h member)).cons x

theorem segments_lexed {s : Str} {l : Marked} (lexed : Lexed s l) :
    ∀ seg ∈ segments l, Lexed (raw seg) seg := by
  induction lexed with
  | nil =>
    intro seg member
    rw [List.mem_singleton.mp member]
    exact .nil
  | @plain c other s l rest ih =>
    intro seg member
    by_cases separates : semicolon (c, .plain) = true
    · rw [segments, List.splitOnP_cons_eq_if_modifyHead, if_pos separates] at member
      rcases List.mem_cons.mp member with rfl | member
      · exact .nil
      · exact ih seg member
    · rw [show (c, Role.plain) :: l = [(c, .plain)] ++ l from rfl,
        segments_prefix (by simpa using separates)] at member
      rcases whole : segments l with _ | ⟨h, rest⟩
      · exact absurd whole (List.splitOnP_ne_nil semicolon l)
      · rw [whole] at ih member
        rcases List.mem_cons.mp member with rfl | member
        · exact .plain c other (ih h List.mem_cons_self)
        · exact ih seg (List.mem_cons_of_mem h member)
  | @quoted q opens a clear s l rest ih =>
    intro seg member
    rw [quoted_split, segments_prefix (quoted_apart semicolon_plain q a)] at member
    rcases whole : segments l with _ | ⟨h, rest⟩
    · exact absurd whole (List.splitOnP_ne_nil semicolon l)
    · rw [whole] at ih member
      rcases List.mem_cons.mp member with rfl | member
      · have piece := Lexed.quoted q opens clear (ih h List.mem_cons_self)
        have letters := piece.raw
        rw [← letters, quoted_split] at piece
        exact piece
      · exact ih seg (List.mem_cons_of_mem h member)

theorem words_blanks {l : Marked} (all : ∀ x ∈ l, blank x = true) : words l = [] := by
  rw [← words_skip, List.dropWhile_eq_nil_iff.mpr all]
  rfl

theorem isspace_le {c : UInt8} (space : isspace c = true) : c ≤ 32 := by
  simp only [isspace, Bool.or_eq_true, Bool.and_eq_true, decide_eq_true_eq, beq_iff_eq] at space
  rcases space with ⟨_, small⟩ | rfl
  · exact UInt8.le_trans small (by decide)
  · decide

theorem Lexed.commands_strempty {s : Str} {l : Marked} (lexed : Lexed s l)
    (empty : strempty s = true) : commands l = [] := by
  have all : ∀ x ∈ l, blank x = true := by
    have spaces := List.all_eq_true.mp empty
    clear empty
    induction lexed with
    | nil => nofun
    | plain c other rest ih =>
      intro x member
      rcases List.mem_cons.mp member with rfl | member
      · simp [blank, isspace_le (spaces c List.mem_cons_self)]
      · exact ih (fun d held => spaces d (List.mem_cons_of_mem c held)) x member
    | quoted q opens clear rest ih =>
      exact absurd (isspace_le (spaces q List.mem_cons_self)) (quote_above opens)
  have none : ∀ ws ∈ (segments l).map words, ws = [] := by
    intro ws member
    obtain ⟨seg, held, rfl⟩ := List.mem_map.mp member
    exact words_blanks fun x inside => all x ((splitOnP_sublist held).mem inside)
  rw [commands, List.filter_eq_nil_iff.mpr]
  · rfl
  · exact fun ws member => by simp [none ws member]

theorem segments_ne_nil (l : Marked) : segments l ≠ [] := List.splitOnP_ne_nil semicolon l

end Embryo.Shell
