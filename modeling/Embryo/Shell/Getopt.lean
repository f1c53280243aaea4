import Embryo.Machine.CString

namespace Embryo.Shell

open Embryo.Machine

def EOF : Int := -1

def BADOPT : Int := 63

/-- What `getopt` keeps between two calls. The empty string it may point at is no place in `argv`. -/
structure Optstate where
  place : Option (Nat × Nat)
  poptind : Nat
  optval : Option Nat

structure Complaint where
  format : String
  name : Str
  option : UInt8
deriving DecidableEq

structure Called where
  ret : Int
  opts : Optstate
  looked : Option (Nat × Nat)
  said : Option Complaint

def charAt (argv : List Str) (arg off : Nat) : Option UInt8 :=
  argv[arg]?.bind fun a => if off ≤ a.length then some (a.getD off 0) else none

def strchr (s : Str) (c : UInt8) : Option Nat := s.findIdx? (· == c)

def complain (argv : List Str) (prnterr : Bool) (format : String) (option : UInt8) : Option Complaint :=
  if prnterr then some ⟨format, argv.headD [], option⟩ else none

def getoptLetter (argv : List Str) (pattern : Str) (prnterr : Bool) (arg off : Nat) (s : Optstate) :
    Option Called := do
  let letter ← charAt argv arg off
  let past : Optstate := { s with place := some (arg, off + 1) }
  let illegal := complain argv prnterr "%s: illegal option -- %c\n"
  let lacking := complain argv prnterr "%s: option requires an argument -- %c\n" letter
  if letter = 0 then
    let before ← charAt argv arg (off - 1)
    return ⟨BADOPT, { s with place := some (arg, off) }, some (arg, off), illegal before⟩
  match strchr pattern letter with
  | none => return ⟨BADOPT, past, some (arg, off), illegal letter⟩
  | some pos =>
    if letter = 58 then return ⟨BADOPT, past, some (arg, off), illegal letter⟩
    let wants : Bool := pattern[pos + 1]? = some 58
    let next ← charAt argv arg (off + 1)
    if next = 0 then
      if wants then
        if s.poptind + 1 < argv.length then
          return ⟨letter.toInt8.toInt, ⟨none, s.poptind + 2, some (s.poptind + 1)⟩, some (arg, off), none⟩
        else return ⟨BADOPT, ⟨some (arg, off + 1), s.poptind + 1, none⟩, some (arg, off), lacking⟩
      else return ⟨letter.toInt8.toInt, ⟨none, s.poptind + 1, none⟩, some (arg, off), none⟩
    else if wants then return ⟨BADOPT, { past with optval := none }, some (arg, off), lacking⟩
    else return ⟨letter.toInt8.toInt, ⟨some (arg, off + 1), s.poptind + 1, none⟩, some (arg, off), none⟩

/-- `getopt`, without a result where it reads an argument that is not there. -/
def getopt (argv : List Str) (pattern : Str) (prnterr : Bool) (s : Optstate) : Option Called := do
  let s := if s.poptind = 0 then { s with place := none, poptind := 1 } else s
  let (place, now) ← match s.place with
    | none => pure (none, 0)
    | some (arg, off) => (charAt argv arg off).map (some (arg, off), ·)
  match place, decide (now = 0) with
  | some (arg, off), false => getoptLetter argv pattern prnterr arg off s
  | _, _ =>
    if s.poptind ≥ argv.length then return ⟨EOF, s, none, none⟩
    let first ← charAt argv s.poptind 0
    if first ≠ 45 then return ⟨EOF, { s with place := some (s.poptind, 0) }, none, none⟩
    getoptLetter argv pattern prnterr s.poptind 1 s

/-- An option as a call reports it: the letter returned, where it stood, and the argument its value is. -/
structure Opt where
  ret : Int
  arg : Nat
  off : Nat
  value : Option Nat
deriving DecidableEq

inductive Ending where
  | eof (poptind : Nat)
  | bad (arg off : Nat)
deriving DecidableEq

inductive Calls (argv : List Str) (pattern : Str) (prnterr : Bool) : Optstate → List Opt → Ending → Prop
  | eof {s called} : getopt argv pattern prnterr s = some called → called.ret = EOF →
      Calls argv pattern prnterr s [] (.eof called.opts.poptind)
  | bad {s called arg off} : getopt argv pattern prnterr s = some called → called.ret = BADOPT →
      called.looked = some (arg, off) → Calls argv pattern prnterr s [] (.bad arg off)
  | option {s called arg off opts ending} : getopt argv pattern prnterr s = some called → called.ret ≠ EOF →
      called.ret ≠ BADOPT → called.looked = some (arg, off) →
        Calls argv pattern prnterr called.opts opts ending →
      Calls argv pattern prnterr s (⟨called.ret, arg, off, called.opts.optval⟩ :: opts) ending

/-- How the letters of an argument end: at one that is no option, at the last, or at one whose value
    is the next argument. -/
inductive Stop where
  | bad (off : Nat)
  | read
  | valued

/-- The options in an argument from a letter on. Only the last letter may take the next argument, if
    there is one. -/
def letters (pattern : Str) (next : Bool) (arg : Nat) : Nat → Str → List Opt × Stop
  | _, [] => ([], .read)
  | off, c :: rest =>
    match strchr pattern c with
    | none => ([], .bad off)
    | some pos =>
      if c = 58 ∨ c.toInt8.toInt = BADOPT then ([], .bad off)
      else if pattern[pos + 1]? = some 58 then
        if rest = [] ∧ next then ([⟨c.toInt8.toInt, arg, off, some (arg + 1)⟩], .valued) else ([], .bad off)
      else
        let (opts, stop) := letters pattern next arg (off + 1) rest
        (⟨c.toInt8.toInt, arg, off, none⟩ :: opts, stop)

def parse (pattern : Str) (arg : Nat) : List Str → List Opt × Ending
  | (45 :: c :: word) :: rest =>
    let (opts, stop) := letters pattern (rest ≠ []) arg 1 (c :: word)
    match stop, rest with
    | .bad off, _ => (opts, .bad arg off)
    | .valued, _ :: rest => (opts ++ (parse pattern (arg + 2) rest).1, (parse pattern (arg + 2) rest).2)
    | _, rest => (opts ++ (parse pattern (arg + 1) rest).1, (parse pattern (arg + 1) rest).2)
  | [45] :: _ => ([], .bad arg 1)
  | _ => ([], .eof arg)

/-- The calls return the options of `argv[1..]` in order and stop where these end. -/
def Parses (argv : List Str) (pattern : Str) (prnterr : Bool) (s : Optstate) : Prop :=
  Calls argv pattern prnterr s (parse pattern 1 argv.tail).1 (parse pattern 1 argv.tail).2

/-- No letter is `EOF` itself, and letters share an argument only in the one where the options end
    with an error. -/
def Unbundled (opts : List Opt) (ending : Ending) : Prop :=
  ∀ o ∈ opts, o.ret ≠ EOF ∧ (1 < o.off → ∃ off, ending = .bad o.arg off)

section

variable {argv : List Str} {pattern : Str} {prnterr : Bool} {s : Optstate} {called : Called} {opts : List Opt}
  {ending : Ending} {arg off : Nat} {a rest : Str} {c : UInt8}

theorem Calls.eof_iff (call : getopt argv pattern prnterr s = some called) (ret : called.ret = EOF) :
    Calls argv pattern prnterr s opts ending ↔ opts = [] ∧ ending = .eof called.opts.poptind := by
  constructor
  · intro calls
    cases calls with
    | eof call' => cases call.symm.trans call'; exact ⟨rfl, rfl⟩
    | bad call' ret' => cases call.symm.trans call'; rw [ret] at ret'; cases ret'
    | option call' other => cases call.symm.trans call'; exact absurd ret other
  · rintro ⟨rfl, rfl⟩
    exact .eof call ret

theorem Calls.bad_iff (call : getopt argv pattern prnterr s = some called) (ret : called.ret = BADOPT)
    (looked : called.looked = some (arg, off)) :
    Calls argv pattern prnterr s opts ending ↔ opts = [] ∧ ending = .bad arg off := by
  constructor
  · intro calls
    cases calls with
    | eof call' ret' => cases call.symm.trans call'; rw [ret] at ret'; cases ret'
    | bad call' _ looked' => cases call.symm.trans call'; cases looked.symm.trans looked'; exact ⟨rfl, rfl⟩
    | option call' _ other => cases call.symm.trans call'; exact absurd ret other
  · rintro ⟨rfl, rfl⟩
    exact .bad call ret looked

theorem Calls.option_iff {o : Opt} (call : getopt argv pattern prnterr s = some called)
    (ret : called.ret ≠ BADOPT)
    (looked : called.looked = some (arg, off)) : Calls argv pattern prnterr s (o :: opts) ending ↔
      o = ⟨called.ret, arg, off, called.opts.optval⟩ ∧ o.ret ≠ EOF ∧
        Calls argv pattern prnterr called.opts opts ending := by
  constructor
  · intro calls
    cases calls with
    | option call' other _ looked' more =>
      cases call.symm.trans call'
      cases looked.symm.trans looked'
      exact ⟨rfl, other, more⟩
  · rintro ⟨rfl, other, more⟩
    exact .option call other ret looked more

theorem charAt_eq (there : argv[arg]? = some a) (inside : off ≤ a.length) :
    charAt argv arg off = some (a.getD off 0) := by
  rw [charAt, there, Option.bind_some, if_pos inside]

theorem charAt_drop (there : argv[arg]? = some a) (left : a.drop off = c :: rest) :
    charAt argv arg off = some c := by
  have here : a[off]? = some c := by rw [← List.head?_drop, left, List.head?_cons]
  have inside := (List.getElem?_eq_some_iff.mp here).1
  rw [charAt_eq there inside.le, List.getD_eq_getElem?_getD, here, Option.getD_some]

theorem charAt_end (there : argv[arg]? = some a) (left : a.drop off = []) (last : off ≤ a.length) :
    charAt argv arg off = some 0 := by
  rw [charAt_eq there last, List.getD_eq_default _ _ (List.drop_eq_nil_iff.mp left)]

theorem getopt_within (there : argv[arg]? = some a) (left : a.drop off = c :: rest) (nonzero : c ≠ 0)
    (begun : s.poptind ≠ 0) (place : s.place = some (arg, off)) :
    getopt argv pattern prnterr s = getoptLetter argv pattern prnterr arg off s := by
  simp only [getopt, if_neg begun, place, charAt_drop there left, Option.map_some,
    Option.bind_eq_bind, Option.bind_some,
    decide_eq_false nonzero]

theorem getopt_begin (begun : s.poptind ≠ 0) (place : s.place = none) (word : Str)
    (there : argv[s.poptind]? = some (45 :: word)) :
    getopt argv pattern prnterr s = getoptLetter argv pattern prnterr s.poptind 1 s := by
  have inside : ¬s.poptind ≥ argv.length := not_le.mpr (List.getElem?_eq_some_iff.mp there).1
  simp only [getopt, if_neg begun, place, pure, Option.bind_eq_bind, Option.bind_some, if_neg inside,
    charAt_drop there List.drop_zero, ne_eq, not_true_eq_false, if_false]

/-- What the calls make of the arguments once the letters of one, whose last stands at `last`, have ended. -/
def Resumes (argv : List Str) (pattern : Str) (prnterr : Bool) (arg last : Nat) (opts : List Opt)
    (ending : Ending) : Stop → Prop
  | .bad off => opts = [] ∧ ending = .bad arg off
  | .read => Calls argv pattern prnterr ⟨none, arg + last, none⟩ opts ending
  | .valued => last = 1 ∧ Calls argv pattern prnterr ⟨none, arg + 2, some (arg + 1)⟩ opts ending

theorem letter_bad {d : UInt8} (here : charAt argv arg off = some c)
    (after : charAt argv arg (off + 1) = some d) (nonzero : c ≠ 0)
    (wrong : strchr pattern c = none ∨ c = 58 ∨ c.toInt8.toInt = BADOPT ∨
      ∃ pos, strchr pattern c = some pos ∧ pattern[pos + 1]? = some 58 ∧
        (d ≠ 0 ∨ argv.length ≤ s.poptind + 1)) :
    ∃ called, getoptLetter argv pattern prnterr arg off s = some called ∧ called.ret = BADOPT ∧
      called.looked = some (arg, off) := by
  simp only [getoptLetter, here, Option.bind_eq_bind, Option.bind_some, if_neg nonzero]
  cases found : strchr pattern c with
  | none => exact ⟨_, rfl, rfl, rfl⟩
  | some pos =>
    by_cases colon : c = 58
    · exact ⟨_, if_pos colon, rfl, rfl⟩
    simp only [if_neg colon, after, Option.bind_some]
    by_cases query : c.toInt8.toInt = BADOPT
    · split_ifs
      all_goals first | exact ⟨_, rfl, query, rfl⟩ | exact ⟨_, rfl, rfl, rfl⟩
    obtain ⟨pos', found', wants, lacks⟩ : ∃ pos', some pos = some pos' ∧ pattern[pos' + 1]? = some 58 ∧
        (d ≠ 0 ∨ argv.length ≤ s.poptind + 1) := by
      simpa only [found, reduceCtorEq, colon, query, false_or] using wrong
    cases found'
    simp only [wants, decide_true, if_true]
    by_cases last : d = 0
    · have full : argv.length ≤ s.poptind + 1 := lacks.resolve_left (not_not_intro last)
      exact ⟨_, (if_pos last).trans (if_neg (by omega)), rfl, rfl⟩
    · exact ⟨_, if_neg last, rfl, rfl⟩

theorem letter_plain {d : UInt8} {pos : Nat} (here : charAt argv arg off = some c)
    (after : charAt argv arg (off + 1) = some d) (nonzero : c ≠ 0)
    (found : strchr pattern c = some pos) (colon : c ≠ 58) (wants : pattern[pos + 1]? ≠ some 58) :
    getoptLetter argv pattern prnterr arg off s =
      some ⟨c.toInt8.toInt, ⟨if d = 0 then none else some (arg, off + 1), s.poptind + 1, none⟩,
        some (arg, off), none⟩ := by
  simp only [getoptLetter, here, Option.bind_eq_bind, Option.bind_some, if_neg nonzero, found,
    if_neg colon, after, wants,
    decide_false, Bool.false_eq_true, if_false]
  split_ifs <;> rfl

theorem charAt_next (there : argv[arg]? = some a) (left : a.drop off = c :: rest) :
    charAt argv arg (off + 1) = some (rest.headD 0) := by
  have tail : a.drop (off + 1) = rest := by rw [← List.drop_drop, left, List.drop_succ_cons, List.drop_zero]
  cases rest with
  | nil =>
    have inside : off < a.length := List.drop_eq_nil_iff.not.mp
      (by rw [left]; exact List.cons_ne_nil _ _) |> not_le.mp
    exact charAt_end there tail inside
  | cons d rest => exact charAt_drop there tail

theorem letter_cases {next : Bool} (there : argv[arg]? = some a) (clear : 0 ∉ a)
    (more : next = true ↔ arg + 1 < argv.length)
    (left : a.drop off = c :: rest) (ind : s.poptind + 1 = arg + off) (first : 0 < off) :
    ((letters pattern next arg off (c :: rest) = ([], .bad off)) ∧
      ∃ called, getoptLetter argv pattern prnterr arg off s = some called ∧ called.ret = BADOPT ∧
        called.looked = some (arg, off)) ∨
    (rest = [] ∧ arg + 1 < argv.length ∧ c.toInt8.toInt ≠ BADOPT ∧
      letters pattern next arg off (c :: rest) = ([⟨c.toInt8.toInt, arg, off, some (arg + 1)⟩], .valued) ∧
      getoptLetter argv pattern prnterr arg off s = some (if s.poptind + 1 < argv.length then
          ⟨c.toInt8.toInt, ⟨none, s.poptind + 2, some (s.poptind + 1)⟩, some (arg, off), none⟩
        else ⟨BADOPT, ⟨some (arg, off + 1), s.poptind + 1, none⟩, some (arg, off),
          complain argv prnterr "%s: option requires an argument -- %c\n" c⟩)) ∨
    (c.toInt8.toInt ≠ BADOPT ∧
      letters pattern next arg off (c :: rest) =
        (⟨c.toInt8.toInt, arg, off, none⟩ :: (letters pattern next arg (off + 1) rest).1,
        (letters pattern next arg (off + 1) rest).2) ∧
      getoptLetter argv pattern prnterr arg off s = some ⟨c.toInt8.toInt,
        ⟨if rest = [] then none else some (arg, off + 1), s.poptind + 1, none⟩, some (arg, off), none⟩) := by
  have here := charAt_drop there left
  have after := charAt_next there left
  have within : ∀ d ∈ c :: rest, d ≠ 0 := fun d member zero =>
    clear (zero ▸ List.mem_of_mem_drop (left ▸ member))
  have nonzero : c ≠ 0 := within c List.mem_cons_self
  have ended : rest.headD 0 = 0 ↔ rest = [] := by
    cases rest with
    | nil => exact iff_of_true rfl rfl
    | cons d rest =>
      exact iff_of_false (within d (List.mem_cons_of_mem _ List.mem_cons_self)) (List.cons_ne_nil _ _)
  cases found : strchr pattern c with
  | none => exact .inl ⟨by rw [letters, found], letter_bad here after nonzero (.inl found)⟩
  | some pos =>
    by_cases turned : c = 58 ∨ c.toInt8.toInt = BADOPT
    · refine .inl ⟨by simp only [letters, found, if_pos turned], letter_bad here after nonzero ?_⟩
      exact .inr (turned.imp_right .inl)
    obtain ⟨colon, query⟩ := not_or.mp turned
    by_cases wants : pattern[pos + 1]? = some 58
    · by_cases valued : rest = [] ∧ next = true
      · refine .inr (.inl ⟨valued.1, more.mp valued.2, query, ?_, ?_⟩)
        · simp only [letters, found, if_neg turned, if_pos wants, if_pos valued]
        · have last : charAt argv arg (off + 1) = some 0 := after.trans (congrArg some (ended.mpr valued.1))
          simp only [getoptLetter, here, Option.bind_eq_bind, Option.bind_some, if_neg nonzero,
            found, if_neg colon, last, wants,
            decide_true, if_true]
          split_ifs <;> rfl
      · refine .inl
          ⟨by
            simp only [letters, found, if_neg turned, if_pos wants, if_neg valued],
              letter_bad here after nonzero ?_⟩
        refine .inr (.inr (.inr ⟨pos, found, wants, ?_⟩))
        rw [ne_eq, ended]
        by_cases last : rest = []
        · have alone : ¬arg + 1 < argv.length := fun enough => valued ⟨last, more.mpr enough⟩
          exact .inr (by omega)
        · exact .inl last
    · refine .inr (.inr ⟨query, by simp only [letters, found, if_neg turned, if_neg wants], ?_⟩)
      rw [letter_plain here after nonzero found colon wants, if_congr ended rfl rfl]

theorem letters_calls {next : Bool} (there : argv[arg]? = some a) (clear : 0 ∉ a)
    (more : next = true ↔ arg + 1 < argv.length) (left : a.drop off = c :: rest)
    (now : getopt argv pattern prnterr s = getoptLetter argv pattern prnterr arg off s)
    (ind : s.poptind + 1 = arg + off) (first : 0 < off) :
    Calls argv pattern prnterr s ((letters pattern next arg off (c :: rest)).1 ++ opts) ending ↔
      (∀ o ∈ (letters pattern next arg off (c :: rest)).1, o.ret ≠ EOF) ∧
      Resumes argv pattern prnterr arg (off + rest.length) opts ending
        (letters pattern next arg off (c :: rest)).2 := by
  induction rest generalizing c off s with
  | nil =>
    rcases letter_cases there clear more left ind first with ⟨entry, called, call, ret, looked⟩
      | ⟨-, enough, ret, entry, call⟩ |
      ⟨ret, entry, call⟩
    · rw [Calls.bad_iff (now.trans call) ret looked, entry]
      simp [Resumes]
    · rw [entry, List.singleton_append, List.forall_mem_singleton, List.length_nil]
      split_ifs at call with room
      · rw [Calls.option_iff (now.trans call) ret rfl]
        by_cases alone : off = 1
        · subst alone
          obtain rfl : s.poptind = arg := by omega
          simp [Resumes]
        · have apart : arg ≠ s.poptind := by omega
          simp [Resumes, apart, alone]
      · rw [Calls.bad_iff (now.trans call) rfl rfl]
        have apart : off ≠ 1 := by omega
        simp [Resumes, apart]
    · rw [entry]
      rw [List.cons_append, Calls.option_iff (now.trans call) ret rfl]
      simp [Resumes, letters, ind]
  | cons d rest ih =>
    rcases letter_cases there clear more left ind first with ⟨entry, called, call, ret, looked⟩ | ⟨ended, -⟩ |
      ⟨ret, entry, call⟩
    · rw [Calls.bad_iff (now.trans call) ret looked, entry]
      simp [Resumes]
    · cases ended
    · have tail : a.drop (off + 1) = d :: rest := by
        rw [← List.drop_drop, left, List.drop_succ_cons, List.drop_zero]
      have nonzero : d ≠ 0 := fun zero => clear (zero ▸ List.mem_of_mem_drop (tail ▸ List.mem_cons_self))
      rw [if_neg (List.cons_ne_nil d rest)] at call
      have on : getopt argv pattern prnterr ⟨some (arg, off + 1), s.poptind + 1, none⟩ = _ :=
        getopt_within there tail nonzero (Nat.succ_ne_zero _) rfl
      rw [entry, List.cons_append, Calls.option_iff (now.trans call) ret rfl,
        ih tail on (show s.poptind + 1 + 1 = _ by omega) (by omega), List.forall_mem_cons,
        List.length_cons, Nat.add_right_comm, Nat.add_assoc off rest.length 1]
      simp [and_assoc]

def Placed (argv : List Str) (place : Option (Nat × Nat)) : Prop :=
  ∀ arg off, place = some (arg, off) → ∃ a, argv[arg]? = some a ∧ off ≤ a.length

theorem getoptLetter_placed (there : argv[arg]? = some a) (inside : off ≤ a.length) :
    ∃ called, getoptLetter argv pattern prnterr arg off s = some called ∧ Placed argv called.opts.place := by
  have at' : ∀ {k : Nat}, k ≤ a.length → Placed argv (some (arg, k)) := by
    rintro k bound arg' off' same
    cases same
    exact ⟨a, there, bound⟩
  simp only [getoptLetter, charAt_eq there inside, Option.bind_eq_bind, Option.bind_some]
  split
  · rw [charAt_eq there ((Nat.sub_le off 1).trans inside)]
    exact ⟨_, rfl, at' inside⟩
  · rename_i nonzero
    have within : off + 1 ≤ a.length := by
      refine Nat.succ_le_of_lt (lt_of_le_of_ne inside fun last => nonzero ?_)
      rw [last, List.getD_eq_default _ _ (Nat.le_refl _)]
    split
    · exact ⟨_, rfl, at' within⟩
    split
    · exact ⟨_, rfl, at' within⟩
    rw [charAt_eq there within, Option.bind_some]
    split_ifs
    all_goals first | exact ⟨_, rfl, at' within⟩ | exact ⟨_, rfl, fun _ _ none => nomatch none⟩

theorem getopt_begin_placed (placed : Placed argv s.place) :
    ∃ called, (if s.poptind ≥ argv.length then some ⟨EOF, s, none, none⟩
        else (charAt argv s.poptind 0).bind fun first =>
          if first ≠ 45 then some ⟨EOF, { s with place := some (s.poptind, 0) }, none, none⟩
          else getoptLetter argv pattern prnterr s.poptind 1 s) = some called ∧
              Placed argv called.opts.place := by
  by_cases past : s.poptind ≥ argv.length
  · exact ⟨_, if_pos past, placed⟩
  obtain ⟨a, there⟩ : ∃ a, argv[s.poptind]? = some a := ⟨_, List.getElem?_eq_getElem (not_le.mp past)⟩
  rw [if_neg past, charAt_eq there (Nat.zero_le _), Option.bind_some]
  split_ifs with dash
  · refine ⟨_, rfl, fun arg off same => ?_⟩
    cases same
    exact ⟨a, there, Nat.zero_le _⟩
  · refine getoptLetter_placed there (List.length_pos_iff.mpr ?_)
    rintro rfl
    exact dash (by decide)

theorem getopt_start (place : Option (Nat × Nat)) (optval : Option Nat) :
    getopt argv pattern prnterr ⟨place, 0, optval⟩ = getopt argv pattern prnterr ⟨none, 1, optval⟩ := rfl

theorem getopt_placed (placed : Placed argv s.place) :
    ∃ called, getopt argv pattern prnterr s = some called ∧ Placed argv called.opts.place := by
  obtain ⟨place, ind, optval⟩ := s
  cases ind with
  | zero =>
    rw [getopt_start]
    exact getopt_begin_placed (s := ⟨none, 1, optval⟩) nofun
  | succ ind =>
    have begun : ind + 1 ≠ 0 := Nat.succ_ne_zero ind
    cases place with
    | none =>
      simp only [getopt, if_neg begun]
      exact getopt_begin_placed placed
    | some at' =>
      obtain ⟨a, there, inside⟩ := placed at'.1 at'.2 rfl
      simp only [getopt, if_neg begun, charAt_eq there inside, Option.map_some, Option.bind_eq_bind,
        Option.bind_some]
      by_cases ended : a.getD at'.2 0 = 0
      · simp only [ended, decide_true]
        exact getopt_begin_placed placed
      · simp only [ended, decide_false]
        exact getoptLetter_placed there inside

theorem letters_within (pattern : Str) (next : Bool) (arg off : Nat) (word : Str) :
    ∀ o ∈ (letters pattern next arg off word).1, o.arg = arg ∧ o.off < off + word.length := by
  fun_induction letters pattern next arg off word with
  | case1 => exact fun o member => absurd member List.not_mem_nil
  | case2 => exact fun o member => absurd member List.not_mem_nil
  | case3 => exact fun o member => absurd member List.not_mem_nil
  | case4 => simp
  | case5 => simp
  | case6 off c rest pos found turned wants opts stop rec ih =>
    rw [rec] at ih
    refine List.forall_mem_cons.mpr ⟨⟨rfl, ?_⟩, fun o member => ⟨(ih o member).1, ?_⟩⟩
    · exact Nat.lt_add_of_pos_right (Nat.succ_pos _)
    · have bound := (ih o member).2
      rw [List.length_cons]
      omega

theorem letters_last (pattern : Str) (next : Bool) (arg off : Nat) (word : Str) (filled : word ≠ [])
    (good : ∀ at', (letters pattern next arg off word).2 ≠ .bad at') :
    ∃ o ∈ (letters pattern next arg off word).1, o.off + 1 = off + word.length := by
  fun_induction letters pattern next arg off word with
  | case1 => exact absurd rfl filled
  | case2 off => exact absurd rfl (good off)
  | case3 off => exact absurd rfl (good off)
  | case4 off c rest pos found turned wants valued =>
    exact ⟨_, List.mem_singleton_self _, by rw [valued.1]; rfl⟩
  | case5 off => exact absurd rfl (good off)
  | case6 off c rest pos found turned wants opts stop rec ih =>
    by_cases last : rest = []
    · exact ⟨_, List.mem_cons_self, by rw [last]; rfl⟩
    · rw [rec] at ih
      obtain ⟨o, member, place⟩ := ih last good
      exact ⟨o, List.mem_cons_of_mem _ member, by rw [place, List.length_cons]; omega⟩

theorem letters_valued (pattern : Str) (next : Bool) (arg off : Nat) (word : Str)
    (valued : (letters pattern next arg off word).2 = .valued) : next = true := by
  fun_induction letters pattern next arg off word with
  | case1 => cases valued
  | case2 => cases valued
  | case3 => cases valued
  | case4 off c rest pos found turned wants both => exact both.2
  | case5 => cases valued
  | case6 off c rest pos found turned wants opts stop rec ih =>
    rw [rec] at ih
    exact ih valued

def opensAt : List Opt → Ending → Nat
  | o :: _, _ => o.arg
  | [], .eof poptind => poptind
  | [], .bad arg _ => arg

theorem getoptLetter_moves (call : getoptLetter argv pattern prnterr arg off s = some called) :
    called.looked = some (arg, off) ∧ s.poptind ≤ called.opts.poptind := by
  simp only [getoptLetter, Option.bind_eq_bind, Option.bind_eq_some_iff] at call
  obtain ⟨letter, -, call⟩ := call
  split at call
  · obtain ⟨before, -, call⟩ := Option.bind_eq_some_iff.mp call
    cases call
    exact ⟨rfl, Nat.le_refl _⟩
  split at call
  · cases call
    exact ⟨rfl, Nat.le_refl _⟩
  split at call
  · cases call
    exact ⟨rfl, Nat.le_refl _⟩
  obtain ⟨next, -, call⟩ := Option.bind_eq_some_iff.mp call
  split_ifs at call <;> cases call <;> exact ⟨rfl, by simp⟩

theorem getopt_moves (call : getopt argv pattern prnterr s = some called) (place : s.place = none)
    (begun : s.poptind ≠ 0) :
    s.poptind ≤ called.opts.poptind ∧ ∀ arg off, called.looked = some (arg, off) → arg = s.poptind := by
  simp only [getopt, if_neg begun, place, pure, Option.bind_eq_bind, Option.bind_some] at call
  split_ifs at call with past
  · cases call
    exact ⟨Nat.le_refl _, nofun⟩
  obtain ⟨first, -, call⟩ := Option.bind_eq_some_iff.mp call
  split_ifs at call with dash
  · cases call
    exact ⟨Nat.le_refl _, nofun⟩
  obtain ⟨looked, moved⟩ := getoptLetter_moves call
  refine ⟨moved, fun arg off looked' => ?_⟩
  cases looked.symm.trans looked'
  rfl

theorem Calls.opensAt_from (calls : Calls argv pattern prnterr s opts ending)
    (place : s.place = none) (begun : s.poptind ≠ 0) :
    s.poptind ≤ opensAt opts ending := by
  cases calls with
  | eof call => exact (getopt_moves call place begun).1
  | bad call _ looked => exact ((getopt_moves call place begun).2 _ _ looked).ge
  | option call _ _ looked => exact ((getopt_moves call place begun).2 _ _ looked).ge

theorem opensAt_append {more : List Opt} (filled : opts ≠ []) (same : ∀ o ∈ opts, o.arg = arg) :
    opensAt (opts ++ more) ending = arg := by
  obtain ⟨o, opts, rfl⟩ := List.exists_cons_of_ne_nil filled
  exact same o List.mem_cons_self

theorem letters_good {next : Bool} {stop : Stop}
    (read : letters pattern next arg 1 (c :: rest) = (opts, stop)) (good : ∀ at', stop ≠ .bad at') :
    opts ≠ [] ∧ (∀ o ∈ opts, o.arg = arg) ∧ ((∀ o ∈ opts, ¬1 < o.off) ↔ rest = []) := by
  have within := letters_within pattern next arg 1 (c :: rest)
  obtain ⟨o, member, place⟩ := letters_last pattern next arg 1 (c :: rest) (List.cons_ne_nil c rest)
    (by rw [read]; exact good)
  rw [read] at within member
  rw [List.length_cons] at place
  refine ⟨List.ne_nil_of_mem member, fun o member => (within o member).1, fun alone => ?_, ?_⟩
  · have low := alone o member
    exact List.eq_nil_of_length_eq_zero (by omega)
  · rintro rfl o member
    exact fun high => absurd (within o member).2 (by rw [List.length_singleton]; omega)

theorem parse_opensAt (pattern : Str) (arg : Nat) (args : List Str) :
    opensAt (parse pattern arg args).1 (parse pattern arg args).2 = arg := by
  fun_induction parse pattern arg args with
  | case1 arg c word rest opts off' read =>
    have within := letters_within pattern (rest ≠ []) arg 1 (c :: word)
    rw [read] at within
    cases opts with
    | nil => rfl
    | cons o opts => exact (within o List.mem_cons_self).1
  | case2 arg c word opts head rest read ih =>
    obtain ⟨filled, same, -⟩ := letters_good read nofun
    exact opensAt_append filled same
  | case3 arg c word opts stop rest good valued read ih =>
    obtain ⟨filled, same, -⟩ := letters_good read good
    exact opensAt_append filled same
  | case4 => rfl
  | case5 => rfl

theorem parse_ending (pattern : Str) (arg : Nat) (args : List Str) (at' : Nat)
    (bad : (parse pattern arg args).2 = .bad at' off) :
    arg ≤ at' := by
  fun_induction parse pattern arg args with
  | case1 arg c word rest opts off' rec => cases bad; exact Nat.le_refl _
  | case2 arg c word opts head rest rec ih => exact Nat.le_of_lt (Nat.lt_of_succ_lt (ih bad))
  | case3 arg c word opts stop rest good valued rec ih => exact Nat.le_of_succ_le (ih bad)
  | case4 arg rest => cases bad; exact Nat.le_refl _
  | case5 => cases bad

theorem unbundled_append {next : Bool} {stop : Stop} {more : List Opt}
    (read : letters pattern next arg 1 (c :: rest) = (opts, stop)) (good : ∀ at', stop ≠ .bad at')
    (later : ∀ off, ending ≠ .bad arg off) :
    Unbundled (opts ++ more) ending ↔ (∀ o ∈ opts, o.ret ≠ EOF) ∧ rest = [] ∧ Unbundled more ending := by
  obtain ⟨-, same, alone⟩ := letters_good read good
  rw [← alone, Unbundled, List.forall_mem_append, ← and_assoc, Unbundled]
  refine and_congr_left fun _ => ?_
  rw [← forall₂_and]
  refine forall₂_congr fun o member => and_congr_right fun _ => ?_
  rw [same o member]
  exact imp_congr_right fun _ => iff_of_false (fun ⟨off, ended⟩ => later off ended) id

theorem getopt_dash (begun : s.poptind ≠ 0) (place : s.place = none) (there : argv[s.poptind]? = some [45]) :
    ∃ called, getopt argv pattern prnterr s = some called ∧ called.ret = BADOPT ∧
      called.looked = some (s.poptind, 1) := by
  rw [getopt_begin begun place [] there]
  have here : charAt argv s.poptind 1 = some 0 := charAt_end there rfl (Nat.le_refl 1)
  have before : charAt argv s.poptind 0 = some 45 := charAt_drop there List.drop_zero
  simp only [getoptLetter, here, Option.bind_eq_bind, Option.bind_some, if_true, Nat.sub_self, before]
  exact ⟨_, rfl, rfl, rfl⟩

theorem getopt_eof (begun : s.poptind ≠ 0) (place : s.place = none)
    (plain : ∀ word, argv[s.poptind]? ≠ some (45 :: word)) :
    ∃ called, getopt argv pattern prnterr s = some called ∧ called.ret = EOF ∧
      called.opts.poptind = s.poptind := by
  simp only [getopt, if_neg begun, place, pure, Option.bind_eq_bind, Option.bind_some]
  by_cases past : s.poptind ≥ argv.length
  · exact ⟨_, if_pos past, rfl, rfl⟩
  obtain ⟨a, there⟩ : ∃ a, argv[s.poptind]? = some a := ⟨_, List.getElem?_eq_getElem (not_le.mp past)⟩
  have first : a.getD 0 0 ≠ 45 := by
    rintro dash
    cases a with
    | nil => cases dash
    | cons c word => exact plain word (by rw [there]; exact congrArg some (congrArg (· :: word) dash))
  rw [if_neg past, charAt_eq there (Nat.zero_le _), Option.bind_some, if_pos first]
  exact ⟨_, rfl, rfl, rfl⟩

theorem drop_first {args : List Str} (left : argv.drop arg = a :: args) :
    argv[arg]? = some a ∧ argv.drop (arg + 1) = args ∧
      (decide (args ≠ []) = true ↔ arg + 1 < argv.length) := by
  have after : argv.drop (arg + 1) = args := by
    rw [← List.drop_drop, left, List.drop_succ_cons, List.drop_zero]
  refine ⟨by rw [← List.head?_drop, left, List.head?_cons], after, ?_⟩
  rw [decide_eq_true_iff, ne_eq, ← after, List.drop_eq_nil_iff, not_le]

theorem argument_calls {word : Str} {stop : Stop} {args : List Str} {more : List Opt} {optval : Option Nat}
    (clear : ∀ a ∈ argv, 0 ∉ a) (begun : arg ≠ 0) (left : argv.drop arg = (45 :: c :: word) :: args)
    (read : letters pattern (args ≠ []) arg 1 (c :: word) = (opts, stop)) :
    Calls argv pattern prnterr ⟨none, arg, optval⟩ (opts ++ more) ending ↔
      (∀ o ∈ opts, o.ret ≠ EOF) ∧ Resumes argv pattern prnterr arg (1 + word.length) more ending stop := by
  obtain ⟨there, -, next⟩ := drop_first left
  have now : getopt argv pattern prnterr ⟨none, arg, optval⟩ =
      getoptLetter argv pattern prnterr arg 1 ⟨none, arg, optval⟩ :=
    getopt_begin begun rfl (c :: word) there
  have calls : Calls argv pattern prnterr ⟨none, arg, optval⟩
      ((letters pattern (args ≠ []) arg 1 (c :: word)).1 ++ more) ending ↔ _ :=
    letters_calls there (clear _ (List.mem_of_getElem? there)) next List.drop_one now rfl one_pos
  rwa [read] at calls

theorem parse_calls (clear : ∀ a ∈ argv, 0 ∉ a) (args : List Str) (optval : Option Nat) (begun : arg ≠ 0)
    (left : argv.drop arg = args) :
    Calls argv pattern prnterr ⟨none, arg, optval⟩ (parse pattern arg args).1 (parse pattern arg args).2 ↔
      Unbundled (parse pattern arg args).1 (parse pattern arg args).2 := by
  fun_induction parse pattern arg args generalizing optval with
  | case1 arg c word rest opts off' read =>
    have within := letters_within pattern (rest ≠ []) arg 1 (c :: word)
    rw [read] at within
    rw [← List.append_nil opts, argument_calls clear begun left read, List.append_nil, Unbundled]
    refine ⟨fun ⟨other, _⟩ o member => ⟨other o member, fun _ => ⟨off', ?_⟩⟩, fun all =>
      ⟨fun o member => (all o member).1, rfl, rfl⟩⟩
    rw [(within o member).1]
  | case2 arg c word opts head rest read ih =>
    have later : ∀ off, (parse pattern (arg + 2) rest).2 ≠ .bad arg off := fun off bad => by
      have far := parse_ending pattern _ rest arg bad
      omega
    obtain ⟨-, after, -⟩ := drop_first left
    rw [argument_calls clear begun left read, unbundled_append read nofun later, Resumes,
      ih _ (Nat.succ_ne_zero _) (drop_first after).2.1]
    simp
  | case3 arg c word opts stop rest good valued read ih =>
    have later : ∀ off, (parse pattern (arg + 1) rest).2 ≠ .bad arg off := fun off bad => by
      have far := parse_ending pattern _ rest arg bad
      omega
    obtain ⟨-, after, -⟩ := drop_first left
    cases stop with
    | bad off => exact absurd rfl (good off)
    | valued =>
      have next := letters_valued pattern (rest ≠ []) arg 1 (c :: word) (by rw [read])
      obtain ⟨head, rest', split⟩ := List.exists_cons_of_ne_nil (of_decide_eq_true next)
      exact (valued head rest' rfl split).elim
    | read =>
      rw [argument_calls clear begun left read, unbundled_append read nofun later, Resumes]
      refine and_congr_right fun _ => ?_
      by_cases single : word = []
      · rw [single, ← ih none (Nat.succ_ne_zero _) after]
        simp
      · refine iff_of_false (fun calls => ?_) (fun both => single both.1)
        -- The next argument is skipped for every letter after the first.
        have far := calls.opensAt_from rfl (by simp)
        rw [parse_opensAt] at far
        have long := List.length_pos_iff.mpr single
        dsimp only at far
        omega
  | case4 arg rest =>
    obtain ⟨there, -⟩ := drop_first left
    obtain ⟨called, call, ret, looked⟩ := getopt_dash (s := ⟨none, arg, optval⟩) begun rfl there
    exact iff_of_true ((Calls.bad_iff call ret looked).mpr ⟨rfl, rfl⟩) nofun
  | case5 args arg other dash =>
    have plain : ∀ word, argv[arg]? ≠ some (45 :: word) := by
      intro word there
      obtain ⟨bound, here⟩ := List.getElem?_eq_some_iff.mp there
      have first : args = (45 :: word) :: argv.drop (arg + 1) := by
        rw [← left, List.drop_eq_getElem_cons bound, here]
      cases word with
      | nil => exact dash _ first
      | cons c word => exact other c word _ first
    obtain ⟨called, call, ret, poptind⟩ := getopt_eof (s := ⟨none, arg, optval⟩) begun rfl plain
    exact iff_of_true ((Calls.eof_iff call ret).mpr ⟨rfl, by rw [poptind]⟩) nofun

theorem Calls.congr {s' : Optstate} (same : getopt argv pattern prnterr s = getopt argv pattern prnterr s') :
    Calls argv pattern prnterr s opts ending ↔ Calls argv pattern prnterr s' opts ending := by
  constructor
  · intro calls
    cases calls with
    | eof call => exact .eof (same ▸ call) ‹_›
    | bad call => exact .bad (same ▸ call) ‹_› ‹_›
    | option call => exact .option (same ▸ call) ‹_› ‹_› ‹_› ‹_›
  · intro calls
    cases calls with
    | eof call => exact .eof (same ▸ call) ‹_›
    | bad call => exact .bad (same ▸ call) ‹_› ‹_›
    | option call => exact .option (same ▸ call) ‹_› ‹_› ‹_› ‹_›

end

/-- The calls return the options in order and end at the right argument exactly when no letter but
    the first of an argument is returned before the options go on behind it. -/
theorem getopt_parses_iff (argv : List Str) (pattern : Str) (prnterr : Bool)
    (place : Option (Nat × Nat)) (optval : Option Nat)
    (clear : ∀ a ∈ argv, 0 ∉ a) : Parses argv pattern prnterr ⟨place, 0, optval⟩ ↔
      Unbundled (parse pattern 1 argv.tail).1 (parse pattern 1 argv.tail).2 :=
  (Calls.congr (getopt_start place optval)).trans
    (parse_calls clear argv.tail optval one_ne_zero (List.drop_one))

theorem separate_options : Unbundled (parse [97, 98, 58] 1 [[45, 97], [45, 98], [118], [120]]).1
      (parse [97, 98, 58] 1 [[45, 97], [45, 98], [118], [120]]).2 ∧
    Parses [[112], [45, 97], [45, 98], [118], [120]] [97, 98, 58] true ⟨none, 0, none⟩ := by
  have unbundled : Unbundled (parse [97, 98, 58] 1 [[45, 97], [45, 98], [118], [120]]).1
      (parse [97, 98, 58] 1 [[45, 97], [45, 98], [118], [120]]).2 := by
    have read : parse [97, 98, 58] 1 [[45, 97], [45, 98], [118], [120]] =
      ([⟨97, 1, 1, none⟩, ⟨98, 2, 1, some 3⟩], .eof 4) := by decide
    rw [read]
    simp [Unbundled, EOF]
  exact ⟨unbundled, (getopt_parses_iff [[112], [45, 97], [45, 98], [118], [120]] [97, 98, 58]
    true none none (by decide)).mpr unbundled⟩

/-- After the bundle `-ab` the argument `-c` is passed over. -/
theorem bundle_skips_argument :
    ¬Parses [[112], [45, 97, 98], [45, 99]] [97, 98, 99] true ⟨none, 0, none⟩ := by
  have read : parse [97, 98, 99] 1 [[45, 97, 98], [45, 99]] =
      ([⟨97, 1, 1, none⟩, ⟨98, 1, 2, none⟩, ⟨99, 2, 1, none⟩], .eof 3) := by
    decide
  intro calls
  rw [Parses, List.tail_cons, read] at calls
  obtain ⟨-, -, calls⟩ := (Calls.option_iff rfl (by decide) rfl).mp calls
  obtain ⟨-, -, calls⟩ := (Calls.option_iff rfl (by decide) rfl).mp calls
  cases ((Calls.eof_iff rfl rfl).mp calls).1

end Embryo.Shell
