import Embryo.Lib.Cvt
import Embryo.Machine.Endian

namespace Embryo.Lib

open Embryo.Machine

def isascii (c : UInt8) : Bool := c ≤ 0x7f
def islower (c : UInt8) : Bool := 97 ≤ c && c ≤ 122
def isxdigit (c : UInt8) : Bool := isdigit c || (65 ≤ c && c ≤ 70) || (97 ≤ c && c ≤ 102)

def partBase : Str → Nat × Str
  | 48 :: 120 :: cp => (16, cp)
  | 48 :: 88 :: cp => (16, cp)
  | 48 :: cp => (8, cp)
  | cp => (10, cp)

/-- The inner loop of `inet_aton`, whose value has 32 bits. -/
def digitsLoop (base : Nat) : Nat → Str → Nat × Str
  | val, [] => (val, [])
  | val, c :: cp =>
    if isascii c ∧ isdigit c then digitsLoop base ((val * base + (c.toNat - 48)) % 2^32) cp
    else if isascii c ∧ base = 16 ∧ isxdigit c then
      digitsLoop base ((val * 16 + (c.toNat - (if islower c then 97 else 65) + 10)) % 2^32) cp
    else (val, c :: cp)

/-- The outer loop, with the parts found so far and room for `room` more of them; the last value is
    kept apart. -/
def partsLoop : Nat → List Nat → Str → Option (List Nat × Nat × Str)
  | room, part, cp =>
    let (base, cp) := partBase cp
    let (val, cp) := digitsLoop base 0 cp
    match cp with
    | 46 :: cp =>
      if val > 0xff then none else
      match room with
      | 0 => none
      | room + 1 => partsLoop room (part ++ [val]) cp
    | cp => some (part, val, cp)

def ended : Str → Bool
  | [] => true
  | c :: _ => isascii c && isspace c

/-- The parts before the last are the high bytes; `n` is their number. -/
def joinParts (val : Nat) : List Nat → Option Nat
  | [a] => if val > 0xffffff then none else some (val ||| a <<< 24)
  | [a, b] => if val > 0xffff then none else some (val ||| (a <<< 24 ||| b <<< 16))
  | [a, b, c] => if val > 0xff then none else some (val ||| (a <<< 24 ||| b <<< 16 ||| c <<< 8))
  | _ => some val

def inet_aton (cp : Str) : Option UInt32 :=
  match partsLoop 3 [] cp with
  | none => none
  | some (part, val, cp) =>
    if ended cp = false then none else (joinParts val part).map fun val => htonl (UInt32.ofNat val)

def inet_ntoa (addr : UInt32) : Option Str := do
  let texts ← (bytes32 addr).mapM fun byte => btoa byte.toNat (-10)
  return List.intercalate [46] texts

def number (base val : Nat) (s : Str) : Nat := s.foldl (fun val c => val * base + (digit c).getD 0) val

def Digits (base : Nat) (s : Str) : Prop := ∀ c ∈ s, ∃ d, digit c = some d ∧ d < base

inductive CNumeral : Str → Nat → Prop
  | decimal {s : Str} : s ≠ [] → s.head? ≠ some 48 → Digits 10 s → CNumeral s (number 10 0 s)
  | octal {s : Str} : Digits 8 s → CNumeral (48 :: s) (number 8 0 s)
  | hex {x : UInt8} {s : Str} : x = 120 ∨ x = 88 → s ≠ [] → Digits 16 s →
    CNumeral (48 :: x :: s) (number 16 0 s)

/-- What the scan takes for a numeral: it may have no digit, and an octal one may have any decimal digit. -/
inductive LooseNumeral : Str → Nat → Prop
  | decimal {s : Str} : s.head? ≠ some 48 → Digits 10 s → LooseNumeral s (number 10 0 s)
  | octal {s : Str} : Digits 10 s → LooseNumeral (48 :: s) (number 8 0 s)
  | hex {x : UInt8} {s : Str} : x = 120 ∨ x = 88 → Digits 16 s → LooseNumeral (48 :: x :: s) (number 16 0 s)

inductive Dotted (numeral : Str → Nat → Prop) : Str → List (Str × Nat) → Prop
  | last {p s : Str} {v : Nat} : numeral p v → ended s = true → Dotted numeral (p ++ s) [(p, v)]
  | part {p s : Str} {v : Nat} {parts : List (Str × Nat)} : numeral p v → Dotted numeral s parts →
      Dotted numeral (p ++ 46 :: s) ((p, v) :: parts)

def address : List Nat → Option Nat
  | [a] => if a < 2^32 then some a else none
  | [a, b] => if a ≤ 255 ∧ b < 2^24 then some (a * 2^24 + b) else none
  | [a, b, c] => if a ≤ 255 ∧ b ≤ 255 ∧ c < 2^16 then some (a * 2^24 + b * 2^16 + c) else none
  | [a, b, c, d] =>
    if a ≤ 255 ∧ b ≤ 255 ∧ c ≤ 255 ∧ d < 2^8 then some (a * 2^24 + b * 2^16 + c * 2^8 + d) else none
  | _ => none

theorem digit_decimal {c : UInt8} (held : isdigit c = true) : digit c = some (c.toNat - 48) := by
  rw [isdigit, Bool.and_eq_true, decide_eq_true_eq, decide_eq_true_eq] at held
  exact if_pos held

theorem digit_hex {c : UInt8} (not : ¬ isdigit c = true) (held : isxdigit c = true) :
    digit c = some (c.toNat - (if islower c then 97 else 65) + 10) := by
  simp only [isxdigit, Bool.or_eq_true, not, Bool.false_eq_true, false_or, Bool.and_eq_true,
    decide_eq_true_eq] at held
  simp only [isdigit, Bool.and_eq_true, decide_eq_true_eq] at not
  rw [digit, if_neg not]
  rcases held with upper | lower
  · have case : islower c = false := by
      simp only [islower, UInt8.le_iff_toNat_le, UInt8.reduceToNat, Bool.and_eq_false_iff,
        decide_eq_false_iff_not] at *
      omega
    rw [if_neg, if_pos upper, case]
    · rfl
    · intro lower
      simp only [UInt8.le_iff_toNat_le, UInt8.reduceToNat] at *
      omega
  · have case : islower c = true := by
      simp only [islower, UInt8.le_iff_toNat_le, UInt8.reduceToNat, Bool.and_eq_true, decide_eq_true_eq] at *
      omega
    rw [if_pos lower, case]
    rfl

theorem digit_none {c : UInt8} (not : ¬ isxdigit c = true) : digit c = none := by
  simp only [isxdigit, isdigit, Bool.or_eq_true, Bool.and_eq_true, decide_eq_true_eq, not_or] at not
  rw [digit, if_neg not.1.1, if_neg not.2, if_neg not.1.2]

def inPart (base : Nat) (c : UInt8) : Bool := isdigit c || (base == 16 && isxdigit c)

theorem inPart_iff {base : Nat} {c : UInt8} :
    inPart base c = true ↔ ∃ d, digit c = some d ∧ d < if base = 16 then 16 else 10 := by
  by_cases decimal : isdigit c = true
  · have less : c.toNat - 48 < 10 := by
      simp only [isdigit, UInt8.le_iff_toNat_le, UInt8.reduceToNat, Bool.and_eq_true,
        decide_eq_true_eq] at decimal
      omega
    simp only [inPart, decimal, Bool.true_or, true_iff]
    exact ⟨_, digit_decimal decimal, by split <;> omega⟩
  by_cases hex : isxdigit c = true
  · have range : 10 ≤ c.toNat - (if islower c then 97 else 65) + 10 ∧
        c.toNat - (if islower c then 97 else 65) + 10 < 16 := by
      simp only [isxdigit, isdigit, islower, UInt8.le_iff_toNat_le, UInt8.reduceToNat,
        Bool.or_eq_true, Bool.and_eq_true, decide_eq_true_eq] at *
      split <;> omega
    simp only [inPart, decimal, hex, digit_hex decimal hex, Bool.false_or, Bool.and_true,
      beq_iff_eq, Option.some.injEq,
      exists_eq_left']
    generalize c.toNat - (if islower c = true then 97 else 65) + 10 = d at range ⊢
    split <;> omega
  · simp [inPart, decimal, hex, digit_none hex]

theorem inPart_ascii {base : Nat} {c : UInt8} (held : inPart base c = true) : isascii c = true := by
  simp only [inPart, isxdigit, isdigit, isascii, UInt8.le_iff_toNat_le, UInt8.reduceToNat,
    Bool.or_eq_true, Bool.and_eq_true,
    decide_eq_true_eq] at *
  omega

theorem number_cons (base val : Nat) (c : UInt8) (s : Str) :
    number base val (c :: s) = number base (val * base + (digit c).getD 0) s := rfl

theorem number_mod {base val val' n : Nat} (same : val ≡ val' [MOD n]) (s : Str) :
    number base val s ≡ number base val' s [MOD n] := by
  induction s generalizing val val' with
  | nil => exact same
  | cons c s ih =>
    rw [number_cons, number_cons]
    exact ih ((same.mul_right base).add_right _)

theorem digitsLoop_eq {base val : Nat} {s : Str} (bound : val < 2^32) :
    digitsLoop base val s = (number base val (s.takeWhile (inPart base)) % 2^32,
      s.dropWhile (inPart base)) := by
  induction s generalizing val with
  | nil =>
    rw [digitsLoop, List.takeWhile_nil, List.dropWhile_nil, number, List.foldl_nil, Nat.mod_eq_of_lt bound]
  | cons c s ih =>
    have step : ∀ d, digit c = some d → number base ((val * base + d) % 2^32)
      (s.takeWhile (inPart base)) % 2^32 =
        number base val (c :: s.takeWhile (inPart base)) % 2^32 := by
      intro d stands
      rw [number_cons, stands, Option.getD_some]
      exact number_mod (Nat.mod_modEq _ _) _
    have small : ∀ v, v % 2^32 < 2^32 := fun v => Nat.mod_lt v (by decide)
    rw [digitsLoop]
    by_cases goes : inPart base c = true
    · have ascii := inPart_ascii goes
      rw [List.takeWhile_cons_of_pos goes, List.dropWhile_cons_of_pos goes]
      by_cases decimal : isdigit c = true
      · rw [if_pos ⟨ascii, decimal⟩, ih (small _), step _ (digit_decimal decimal)]
      · simp only [inPart, decimal, Bool.false_or, Bool.and_eq_true, beq_iff_eq] at goes
        obtain ⟨rfl, hex⟩ := goes
        rw [if_neg fun held => decimal held.2, if_pos ⟨ascii, rfl, hex⟩, ih (small _),
          step _ (digit_hex decimal hex)]
    · simp only [inPart, Bool.or_eq_true, Bool.and_eq_true, beq_iff_eq, not_or] at goes
      rw [if_neg fun held => goes.1 held.2, if_neg fun held => goes.2 held.2,
        List.takeWhile_cons_of_neg, List.dropWhile_cons_of_neg]
      · rw [number, List.foldl_nil, Nat.mod_eq_of_lt bound]
      all_goals simpa [inPart] using goes

def Apart (s : Str) : Prop := ∀ c ∈ s.head?, c = 46 ∨ isspace c = true

theorem Apart.stops {s : Str} (apart : Apart s) {c : UInt8} (next : s.head? = some c) :
    isxdigit c = false ∧ c ≠ 120 ∧ c ≠ 88 := by
  have held := apart c next
  simp only [isspace, isxdigit, isdigit, UInt8.le_iff_toNat_le, UInt8.reduceToNat,
    ← UInt8.toNat_inj, Bool.or_eq_true, Bool.and_eq_true,
    beq_iff_eq, decide_eq_true_eq, Bool.or_eq_false_iff, Bool.and_eq_false_iff,
      decide_eq_false_iff_not, ne_eq] at *
  omega

theorem Apart.split {base : Nat} {p s : Str} (inside : ∀ c ∈ p, inPart base c = true) (apart : Apart s) :
    (p ++ s).takeWhile (inPart base) = p ∧ (p ++ s).dropWhile (inPart base) = s := by
  have stops : ∀ c ∈ s.head?, inPart base c ≠ true := by
    intro c next held
    have hex : isxdigit c = true := by
      rw [inPart, Bool.or_eq_true, Bool.and_eq_true] at held
      rcases held with decimal | ⟨-, hex⟩
      · rw [isxdigit, decimal, Bool.true_or, Bool.true_or]
      · exact hex
    rw [(apart.stops next).1] at hex
    exact absurd hex (by decide)
  rw [List.takeWhile_append_of_pos inside, List.dropWhile_append_of_pos inside]
  cases s with
  | nil => exact ⟨List.append_nil p, rfl⟩
  | cons c s =>
    have stop := stops c rfl
    rw [List.takeWhile_cons_of_neg stop, List.dropWhile_cons_of_neg stop, List.append_nil]
    exact ⟨rfl, rfl⟩

theorem partBase_decimal {s : Str} (first : s.head? ≠ some 48) : partBase s = (10, s) := by
  fun_cases partBase s with
  | case1 | case2 | case3 => exact absurd rfl first
  | case4 => rfl

theorem partBase_octal {s : Str} (lower : s.head? ≠ some 120) (upper : s.head? ≠ some 88) :
    partBase (48 :: s) = (8, s) := by
  rw [partBase]
  · rintro t rfl
    exact lower rfl
  · rintro t rfl
    exact upper rfl

def scanPart (cp : Str) : Nat × Str := digitsLoop (partBase cp).1 0 (partBase cp).2

theorem digits_inPart (base : Nat) {p : Str} (digits : Digits (if base = 16 then 16 else 10) p) :
    ∀ c ∈ p, inPart base c = true :=
  fun c held => inPart_iff.mpr (digits c held)

theorem head_append {p s : Str} {c : UInt8} (first : p.head? ≠ some c) (next : s.head? ≠ some c) :
    (p ++ s).head? ≠ some c := by
  cases p with
  | nil => exact next
  | cons => exact first

theorem LooseNumeral.scans {p s : Str} {v : Nat} (loose : LooseNumeral p v) (apart : Apart s) :
    scanPart (p ++ s) = (v % 2^32, s) := by
  have digitless : ∀ {c : UInt8}, isxdigit c = true → s.head? ≠ some c := by
    intro c hex next
    rw [(apart.stops next).1] at hex
    exact absurd hex (by decide)
  rw [scanPart]
  cases loose with
  | decimal first digits =>
    have split := apart.split (digits_inPart 10 digits)
    rw [partBase_decimal (head_append first (digitless rfl)), digitsLoop_eq (by decide), split.1, split.2]
  | @octal p digits =>
    have split := apart.split (digits_inPart 8 digits)
    have plain : ∀ c : UInt8, digit c = none → p.head? ≠ some c := by
      intro c none next
      obtain ⟨d, stands, -⟩ := digits c (List.mem_of_head? next)
      rw [none] at stands
      exact absurd stands (by simp)
    rw [List.cons_append, partBase_octal (head_append (plain 120 rfl) fun next => (apart.stops next).2.1 rfl)
      (head_append (plain 88 rfl) fun next => (apart.stops next).2.2 rfl),
        digitsLoop_eq (by decide), split.1, split.2]
  | @hex x p marks digits =>
    have split := apart.split (digits_inPart 16 digits)
    have base : partBase (48 :: x :: (p ++ s)) = (16, p ++ s) := by rcases marks with rfl | rfl <;> rfl
    rw [List.cons_append, List.cons_append, base, digitsLoop_eq (by decide), split.1, split.2]

theorem scanPart_loose (s : Str) :
    ∃ p v rest, LooseNumeral p v ∧ s = p ++ rest ∧ scanPart s = (v % 2^32, rest) := by
  have taken : ∀ base (s : Str), Digits (if base = 16 then 16 else 10) (s.takeWhile (inPart base)) :=
    fun base s c held => inPart_iff.mp (List.mem_takeWhile_imp held)
  have whole : ∀ base (s : Str), s.takeWhile (inPart base) ++ s.dropWhile (inPart base) = s :=
    fun base s => List.takeWhile_append_dropWhile
  rw [scanPart]
  fun_cases partBase s with
  | case1 cp =>
    exact ⟨_, _, _, .hex (.inl rfl) (taken 16 cp), congrArg (48 :: 120 :: ·) (whole 16 cp).symm,
      digitsLoop_eq (by decide)⟩
  | case2 cp =>
    exact ⟨_, _, _, .hex (.inr rfl) (taken 16 cp), congrArg (48 :: 88 :: ·) (whole 16 cp).symm,
      digitsLoop_eq (by decide)⟩
  | case3 cp =>
    exact ⟨_, _, _, .octal (taken 8 cp), congrArg (48 :: ·) (whole 8 cp).symm, digitsLoop_eq (by decide)⟩
  | case4 s _ _ other =>
    have first : (s.takeWhile (inPart 10)).head? ≠ some 48 := by
      intro next
      cases s with
      | nil => exact absurd next (by simp)
      | cons c s =>
        rw [List.takeWhile_cons] at next
        split at next
        · exact other s (congrArg (· :: s) (Option.some.inj next))
        · exact absurd next (by simp)
    exact ⟨_, _, _, .decimal first (taken 10 s), (whole 10 s).symm, digitsLoop_eq (by decide)⟩

theorem ended_apart {s : Str} (held : ended s = true) : Apart s := by
  intro c next
  cases s with
  | nil => exact absurd next (by simp)
  | cons c' s =>
    rw [ended, Bool.and_eq_true] at held
    exact .inr (Option.some.inj next ▸ held.2)

theorem ended_undotted {s : Str} : ended (46 :: s) = false := rfl

theorem partsLoop_dot {room val : Nat} {part : List Nat} {cp rest : Str}
    (scan : scanPart cp = (val, 46 :: rest)) :
    partsLoop (room + 1) part cp = if val > 0xff then none else partsLoop room (part ++ [val]) rest := by
  rw [scanPart] at scan
  rw [partsLoop]
  simp only [scan]

theorem partsLoop_full {val : Nat} {part : List Nat} {cp rest : Str}
    (scan : scanPart cp = (val, 46 :: rest)) :
    partsLoop 0 part cp = none := by
  rw [scanPart] at scan
  rw [partsLoop]
  simp only [scan, ite_self]

theorem partsLoop_last {room val : Nat} {part : List Nat} {cp rest : Str} (scan : scanPart cp = (val, rest))
    (apart : ∀ s, rest ≠ 46 :: s) : partsLoop room part cp = some (part, val, rest) := by
  rw [scanPart] at scan
  unfold partsLoop
  simp only [scan]

abbrev wrapped (parts : List (Str × Nat)) : List Nat := parts.map fun p => p.2 % 2^32

theorem partsLoop_sound {room val : Nat} {part part' : List Nat} {cp rest : Str}
    (runs : partsLoop room part cp = some (part', val, rest)) (stops : ended rest = true) :
    ∃ parts, Dotted LooseNumeral cp parts ∧ part' ++ [val] = part ++ wrapped parts ∧
      part'.length ≤ part.length + room ∧
      ((∀ v ∈ part, v ≤ 255) → ∀ v ∈ part', v ≤ 255) := by
  induction room generalizing part cp with
  | zero =>
    obtain ⟨p, v, left, loose, rfl, scan⟩ := scanPart_loose cp
    by_cases dot : ∃ s, left = 46 :: s
    · obtain ⟨s, rfl⟩ := dot
      rw [partsLoop_full scan] at runs
      exact absurd runs (by simp)
    · rw [partsLoop_last scan fun s held => dot ⟨s, held⟩] at runs
      cases runs
      exact ⟨[(p, v)], .last loose stops, rfl, Nat.le_refl _, id⟩
  | succ room ih =>
    obtain ⟨p, v, left, loose, rfl, scan⟩ := scanPart_loose cp
    by_cases dot : ∃ s, left = 46 :: s
    · obtain ⟨s, rfl⟩ := dot
      rw [partsLoop_dot scan] at runs
      split at runs
      · exact absurd runs (by simp)
      next small =>
        obtain ⟨parts, dotted, same, length, bytes⟩ := ih runs
        rw [List.append_assoc, List.singleton_append] at same
        rw [List.length_append, List.length_singleton] at length
        refine ⟨(p, v) :: parts, .part loose dotted, same, by omega, fun held => bytes ?_⟩
        intro w inside
        rcases List.mem_append.mp inside with inside | inside
        · exact held w inside
        · rw [List.mem_singleton.mp inside]
          omega
    · rw [partsLoop_last scan fun s held => dot ⟨s, held⟩] at runs
      cases runs
      exact ⟨[(p, v)], .last loose stops, rfl, by omega, id⟩

theorem partsLoop_complete (room : Nat) (part : List Nat) {val : Nat} {init : List Nat} {cp : Str}
    {parts : List (Str × Nat)} (dotted : Dotted LooseNumeral cp parts)
    (values : wrapped parts = init ++ [val]) (fits : init.length ≤ room)
    (bytes : ∀ v ∈ init, v ≤ 255) :
    ∃ rest, partsLoop room part cp = some (part ++ init, val, rest) ∧ ended rest = true := by
  induction dotted generalizing room part init with
  | @last p s v loose stops =>
    have alone : init = [] ∧ v % 2^32 = val := by
      cases init with
      | nil => exact ⟨rfl, List.head_eq_of_cons_eq values⟩
      | cons w init => exact absurd (congrArg List.length values) (by simp)
    obtain ⟨rfl, rfl⟩ := alone
    refine ⟨s, ?_, stops⟩
    rw [List.append_nil]
    apply partsLoop_last (loose.scans (ended_apart stops))
    rintro t rfl
    rw [ended_undotted] at stops
    exact absurd stops (by decide)
  | @part p s v parts loose dotted ih =>
    cases init with
    | nil =>
      have short := congrArg List.length values
      cases dotted <;> simp at short
    | cons w init =>
      have value : v % 2^32 = w := List.head_eq_of_cons_eq values
      have tail : wrapped parts = init ++ [val] := List.tail_eq_of_cons_eq values
      subst value
      obtain ⟨room, rfl⟩ : ∃ rest, room = rest + 1 := ⟨room - 1, by rw [List.length_cons] at fits; omega⟩
      have small := bytes _ List.mem_cons_self
      obtain ⟨rest, runs, stops⟩ := @ih room (part ++ [v % 2^32]) init tail (Nat.le_of_succ_le_succ fits)
        fun v held => bytes v (List.mem_cons_of_mem _ held)
      have apart : Apart (46 :: s) := fun c next => .inl (Option.some.inj next).symm
      refine ⟨rest, ?_, stops⟩
      rw [partsLoop_dot (loose.scans apart), if_neg (by omega), runs, List.append_assoc,
        List.singleton_append]

theorem or_shifted {n val : Nat} (k a : Nat) (same : n = a * 2^k) (less : val < 2^k) :
    n ||| val = n + val := by
  rw [same, ← Nat.shiftLeft_eq, Nat.shiftLeft_add_eq_or_of_lt less]

theorem joinParts_address {val x : Nat} {part : List Nat} (length : part.length ≤ 3)
    (bytes : ∀ v ∈ part, v ≤ 255)
    (bound : val < 2^32) : joinParts val part = some x ↔ address (part ++ [val]) = some x := by
  match part, length with
  | [], _ => rw [joinParts, List.nil_append, address, if_pos bound] <;> simp
  | [a], _ =>
    have first : a ≤ 255 := bytes a List.mem_cons_self
    rw [joinParts, List.singleton_append, address]
    by_cases large : val > 0xffffff
    · rw [if_pos large, if_neg (by omega)]
    · rw [if_neg large, if_pos (by omega), Nat.or_comm,
        or_shifted 24 a (Nat.shiftLeft_eq a 24) (by omega), Nat.shiftLeft_eq]
  | [a, b], _ =>
    have first : a ≤ 255 := bytes a (by simp)
    have second : b ≤ 255 := bytes b (by simp)
    rw [joinParts, List.cons_append, List.singleton_append, address]
    by_cases large : val > 0xffff
    · rw [if_pos large, if_neg (by omega)]
    · rw [if_neg large, if_pos (by omega), Nat.or_comm, Nat.shiftLeft_eq, Nat.shiftLeft_eq,
        or_shifted 24 a rfl (by omega),
        or_shifted 16 (a * 2^8 + b) (by omega) (by omega)]
  | [a, b, c], _ =>
    have first : a ≤ 255 := bytes a (by simp)
    have second : b ≤ 255 := bytes b (by simp)
    have third : c ≤ 255 := bytes c (by simp)
    rw [joinParts, List.cons_append, List.cons_append, List.singleton_append, address]
    by_cases large : val > 0xff
    · rw [if_pos large, if_neg (by omega)]
    · rw [if_neg large, if_pos (by omega), Nat.or_comm, Nat.shiftLeft_eq, Nat.shiftLeft_eq, Nat.shiftLeft_eq,
        or_shifted 24 a rfl (by omega), or_shifted (n := a * 2^24 + b * 2^16) 16 (a * 2^8 + b)
          (by omega) (by omega),
        or_shifted 8 (a * 2^16 + b * 2^8 + c) (by omega) (by omega)]
  | _ :: _ :: _ :: _ :: _, length => exact absurd length (by simp)

theorem address_bytes {init : List Nat} {val a : Nat} (made : address (init ++ [val]) = some a) :
    init.length ≤ 3 ∧ (∀ v ∈ init, v ≤ 255) ∧ val < 2^32 ∧ a < 2^32 := by
  match init, made with
  | [], made =>
    rw [List.nil_append, address] at made
    split at made <;> simp_all
  | [a], made =>
    rw [List.singleton_append, address] at made
    split at made
    · cases made
      exact ⟨by simp, by simpa using by omega, by omega, by omega⟩
    · exact absurd made (by simp)
  | [a, b], made =>
    rw [List.cons_append, List.singleton_append, address] at made
    split at made
    · cases made
      exact ⟨by simp, by simpa using by omega, by omega, by omega⟩
    · exact absurd made (by simp)
  | [a, b, c], made =>
    rw [List.cons_append, List.cons_append, List.singleton_append, address] at made
    split at made
    · cases made
      exact ⟨by simp, by simpa using by omega, by omega, by omega⟩
    · exact absurd made (by simp)
  | _ :: _ :: _ :: _ :: init, made => cases init <;> exact absurd made (by simp [address])

theorem Dotted.snoc {numeral : Str → Nat → Prop} {s : Str} {parts : List (Str × Nat)}
    (dotted : Dotted numeral s parts) :
    ∃ init val, wrapped parts = init ++ [val] := by
  have some : wrapped parts ≠ [] := by cases dotted <;> simp
  exact ⟨_, _, (List.dropLast_append_getLast some).symm⟩

theorem inet_aton_iff (s : Str) (x : UInt32) :
    inet_aton s = some x ↔
      ∃ parts a, Dotted LooseNumeral s parts ∧ address (wrapped parts) = some a ∧
        x = htonl (UInt32.ofNat a) := by
  constructor
  · intro result
    rw [inet_aton] at result
    cases runs : partsLoop 3 [] s with
    | none => simp [runs] at result
    | some found =>
      obtain ⟨part, val, rest⟩ := found
      simp only [runs] at result
      split at result
      · exact absurd result (by simp)
      next stops =>
        obtain ⟨a, joined, rfl⟩ := Option.map_eq_some_iff.mp result
        obtain ⟨parts, dotted, same, length, bytes⟩ := partsLoop_sound runs (by simpa using stops)
        rw [List.nil_append] at same
        have bound : val < 2^32 := by
          have member : val ∈ wrapped parts := same ▸ List.mem_append_right part List.mem_cons_self
          obtain ⟨p, -, rfl⟩ := List.mem_map.mp member
          exact Nat.mod_lt _ (by decide)
        rw [joinParts_address (by simpa using length) (bytes fun v held =>
          absurd held List.not_mem_nil) bound, same] at joined
        exact ⟨parts, a, dotted, joined, rfl⟩
  · rintro ⟨parts, a, dotted, made, rfl⟩
    obtain ⟨init, val, values⟩ := dotted.snoc
    rw [values] at made
    obtain ⟨short, bytes, bound, -⟩ := address_bytes made
    obtain ⟨rest, runs, stops⟩ := partsLoop_complete 3 [] dotted values short bytes
    rw [inet_aton, runs]
    simp only [List.nil_append, stops, Bool.true_eq_false, if_false]
    rw [(joinParts_address short bytes bound).mpr made]
    rfl

theorem CNumeral.loose {p : Str} {v : Nat} (numeral : CNumeral p v) : LooseNumeral p v := by
  cases numeral with
  | decimal _ first digits => exact .decimal first digits
  | octal digits =>
    refine .octal fun c held => ?_
    obtain ⟨d, stands, less⟩ := digits c held
    exact ⟨d, stands, by omega⟩
  | hex marks _ digits => exact .hex marks digits

theorem LooseNumeral.unique {p : Str} {v w : Nat} (left : LooseNumeral p v)
    (right : LooseNumeral p w) : v = w := by
  have unmarked : ∀ {x : UInt8} {s : Str}, (x = 120 ∨ x = 88) → ¬ Digits 10 (x :: s) := by
    intro x s marks digits
    obtain ⟨d, stands, -⟩ := digits x List.mem_cons_self
    rcases marks with rfl | rfl <;> simp [digit] at stands
  cases left with
  | decimal first digits =>
    cases right with
    | decimal => rfl
    | octal | hex => exact absurd rfl first
  | octal digits =>
    cases right with
    | decimal first => exact absurd rfl first
    | octal => rfl
    | hex marks => exact absurd digits (unmarked marks)
  | hex marks digits =>
    cases right with
    | decimal first => exact absurd rfl first
    | octal digits => exact absurd digits (unmarked marks)
    | hex => rfl

theorem Dotted.unique {s : Str} {parts parts' : List (Str × Nat)} (left : Dotted LooseNumeral s parts)
    (right : Dotted LooseNumeral s parts') : parts = parts' := by
  have dotApart : ∀ s : Str, Apart (46 :: s) := fun s c next => .inl (Option.some.inj next).symm
  have cut : ∀ {p q s t : Str} {v w : Nat}, LooseNumeral p v → LooseNumeral q w → Apart s →
    Apart t → p ++ s = q ++ t →
      p = q ∧ v = w ∧ s = t := by
    intro p q s t v w first second apart apart' same
    have scan := first.scans apart
    rw [same, second.scans apart'] at scan
    obtain rfl : t = s := congrArg Prod.snd scan
    obtain rfl := List.append_cancel_right same
    exact ⟨rfl, first.unique second, rfl⟩
  induction left generalizing parts' with
  | @last p t v loose stops =>
    generalize whole : p ++ t = s at right
    cases right with
    | last loose' stops' =>
      obtain ⟨rfl, rfl, -⟩ := cut loose loose' (ended_apart stops) (ended_apart stops') whole
      rfl
    | part loose' dotted =>
      obtain ⟨-, -, rfl⟩ := cut loose loose' (ended_apart stops) (dotApart _) whole
      exact absurd (ended_undotted.symm.trans stops) (by decide)
  | @part p t v parts loose dotted ih =>
    generalize whole : p ++ 46 :: t = s at right
    cases right with
    | last loose' stops' =>
      obtain ⟨-, -, rfl⟩ := cut loose loose' (dotApart _) (ended_apart stops') whole
      exact absurd (ended_undotted.symm.trans stops') (by decide)
    | part loose' dotted' =>
      obtain ⟨rfl, rfl, same⟩ := cut loose loose' (dotApart _) (dotApart _) whole
      rw [ih (List.tail_eq_of_cons_eq same ▸ dotted')]

theorem Dotted.imp {numeral numeral' : Str → Nat → Prop} {s : Str} {parts : List (Str × Nat)}
    (dotted : Dotted numeral s parts)
    (weaker : ∀ p ∈ parts, numeral p.1 p.2 → numeral' p.1 p.2) : Dotted numeral' s parts := by
  induction dotted with
  | last held stops => exact .last (weaker _ List.mem_cons_self held) stops
  | part held _ ih =>
    exact .part (weaker _ List.mem_cons_self held) (ih fun p inside =>
      weaker p (List.mem_cons_of_mem _ inside))

theorem Dotted.holds {numeral : Str → Nat → Prop} {s : Str} {parts : List (Str × Nat)}
    (dotted : Dotted numeral s parts) :
    ∀ p ∈ parts, numeral p.1 p.2 := by
  induction dotted with
  | last held _ => exact fun p inside => List.mem_singleton.mp inside ▸ held
  | part held _ ih => exact List.forall_mem_cons.mpr ⟨held, ih⟩

theorem wrapped_eq {parts : List (Str × Nat)} (small : ∀ p ∈ parts, p.2 < 2^32) :
    wrapped parts = parts.map Prod.snd :=
  List.map_congr_left fun p inside => Nat.mod_eq_of_lt (small p inside)

theorem address_small {parts : List (Str × Nat)} {a : Nat} (made : address (parts.map Prod.snd) = some a) :
    ∀ p ∈ parts, p.2 < 2^32 := by
  intro p inside
  have some : parts.map Prod.snd ≠ [] := by
    rintro none
    rw [none] at made
    exact absurd made (by simp [address])
  have whole := (List.dropLast_append_getLast some).symm
  have member : p.2 ∈ parts.map Prod.snd := List.mem_map_of_mem inside
  rw [whole] at made member
  obtain ⟨-, bytes, bound, -⟩ := address_bytes made
  rcases List.mem_append.mp member with first | last
  · exact Nat.lt_of_le_of_lt (bytes _ first) (by decide)
  · rw [List.mem_singleton.mp last]
    exact bound

def Names (s : Str) (x : UInt32) : Prop :=
  ∃ parts a, Dotted CNumeral s parts ∧ address (parts.map Prod.snd) = some a ∧ x = htonl (UInt32.ofNat a)

/-- No numeral of a text that passes the scan is empty, has an 8 or 9 after a leading 0, or is too
    large for 32 bits. -/
def Clean (s : Str) : Prop :=
  ∀ parts, Dotted LooseNumeral s parts → (address (wrapped parts)).isSome →
    ∀ p ∈ parts, CNumeral p.1 p.2 ∧ p.2 < 2^32

theorem names_iff {s : Str} : (∀ x, inet_aton s = some x ↔ Names s x) ↔ Clean s := by
  constructor
  · intro meets parts dotted made
    obtain ⟨a, made⟩ := Option.isSome_iff_exists.mp made
    obtain ⟨parts', a', strict, exactly, -⟩ :=
      (meets _).mp ((inet_aton_iff s _).mpr ⟨parts, a, dotted, made, rfl⟩)
    obtain rfl := dotted.unique (strict.imp fun _ _ => CNumeral.loose)
    exact fun p inside => ⟨strict.holds p inside, address_small exactly p inside⟩
  · intro clean x
    rw [inet_aton_iff]
    constructor
    · rintro ⟨parts, a, dotted, made, rfl⟩
      have strict := clean parts dotted (made ▸ rfl)
      rw [wrapped_eq fun p inside => (strict p inside).2] at made
      exact ⟨parts, a, dotted.imp fun p inside _ => (strict p inside).1, made, rfl⟩
    · rintro ⟨parts, a, dotted, made, rfl⟩
      refine ⟨parts, a, dotted.imp fun _ _ => CNumeral.loose, ?_, rfl⟩
      rw [wrapped_eq (address_small made)]
      exact made

theorem number_written {n : Nat} : number 10 0 (written false 10 n) = n := by
  have sums : ∀ ds : List Nat, (∀ d ∈ ds, d < 10) → number 10 0 (ds.map (digitChar false)).reverse =
      Nat.ofDigits 10 ds := by
    intro ds
    induction ds with
    | nil => exact fun _ => rfl
    | cons d ds ih =>
      intro small
      have stands := digitChar_reads false d (Nat.lt_trans (small d List.mem_cons_self) (by decide))
      have rest := ih fun d held => small d (List.mem_cons_of_mem _ held)
      rw [number] at rest
      rw [number, List.map_cons, List.reverse_cons, List.foldl_append, rest, List.foldl_cons,
        List.foldl_nil, stands,
        Option.getD_some, Nat.ofDigits_cons]
      exact (Nat.add_comm _ _).trans (congrArg (d + ·) (Nat.mul_comm _ _))
  rw [written, sums _ fun d held => Nat.digits_lt_base (by decide) held, Nat.ofDigits_digits]

theorem written_numeral {n : Nat} (pos : n ≠ 0) : CNumeral (written false 10 n) n := by
  have some : Nat.digits 10 n ≠ [] := Nat.digits_ne_nil_iff_ne_zero.mpr pos
  have nonzero : ∀ d < 10, d ≠ 0 → digitChar false d ≠ 48 := by decide
  have numeral : CNumeral (written false 10 n) (number 10 0 (written false 10 n)) := by
    apply CNumeral.decimal
    · rw [written, ne_eq, List.reverse_eq_nil_iff, List.map_eq_nil_iff]
      exact some
    · rw [written, List.head?_reverse, List.getLast?_map, List.getLast?_eq_some_getLast some, Option.map_some]
      intro zero
      exact nonzero _ (Nat.digits_lt_base (by decide) (List.getLast_mem some))
        (Nat.getLast_digit_ne_zero 10 pos)
        (Option.some.inj zero)
    · intro c held
      obtain ⟨d, inside, rfl⟩ := List.mem_map.mp (List.mem_reverse.mp held)
      have less := Nat.digits_lt_base (by decide) inside
      exact ⟨d, digitChar_reads false d (by omega), less⟩
  rwa [number_written] at numeral

theorem btoa_numeral (byte : UInt8) : ∃ p, btoa byte.toNat (-10) = some p ∧ CNumeral p byte.toNat := by
  have bound : byte.toNat < 256 := byte.toNat_lt
  by_cases zero : byte.toNat = 0
  · rw [zero]
    exact ⟨[48], rfl, .octal fun c held => absurd held List.not_mem_nil⟩
  · refine ⟨_, baseText_unsigned (fun b v pos _ _ => exact_division pos) (by decide) zero (by omega)
      (by decide) ?_,
      written_numeral zero⟩
    rintro ⟨-, top⟩
    rw [Nat.testBit_lt_two_pow (by omega)] at top
    exact absurd top (by decide)

theorem ntoa_names (addr : UInt32) : ∃ text, inet_ntoa addr = some text ∧ Names text addr := by
  have bound := addr.toNat_lt
  obtain ⟨p, prints, numeral⟩ := btoa_numeral (UInt8.ofNat addr.toNat)
  obtain ⟨q, prints', numeral'⟩ := btoa_numeral (UInt8.ofNat (addr.toNat / 256))
  obtain ⟨r, prints'', numeral''⟩ := btoa_numeral (UInt8.ofNat (addr.toNat / 65536))
  obtain ⟨t, prints''', numeral'''⟩ := btoa_numeral (UInt8.ofNat (addr.toNat / 16777216))
  have text : inet_ntoa addr = some (p ++ 46 :: (q ++ 46 :: (r ++ 46 :: (t ++ [])))) := by
    simp only [inet_ntoa, bytes32, List.mapM_cons, List.mapM_nil, prints, prints', prints'',
      prints''', Option.bind_eq_bind,
      Option.bind_some, Option.pure_def]
    rfl
  have dotted : Dotted CNumeral (p ++ 46 :: (q ++ 46 :: (r ++ 46 :: (t ++ [])))) _ :=
    .part numeral (.part numeral' (.part numeral'' (.last numeral''' rfl)))
  refine ⟨_, text, _, (swap32 addr).toNat, dotted, ?_, ?_⟩
  · rw [swap32_toNat]
    simp only [List.map_cons, List.map_nil, UInt8.toNat_ofNat', Nat.reducePow, address]
    rw [if_pos (by omega), Nat.mod_eq_of_lt (a := addr.toNat / 16777216) (by omega)]
  · rw [UInt32.ofNat_toNat]
    exact (swap32_swap32 addr).symm

/-- Where a text is clean, the function reads it as the C notation says; and it reads what it has printed. -/
theorem inet_aton_clean_iff (s : Str) (addr : UInt32) :
    ((∀ x, inet_aton s = some x ↔ Names s x) ↔ Clean s) ∧
      ∃ text, inet_ntoa addr = some text ∧ inet_aton text = some addr := by
  refine ⟨names_iff, ?_⟩
  obtain ⟨text, prints, parts, a, dotted, made, same⟩ := ntoa_names addr
  refine ⟨text, prints, (inet_aton_iff text addr).mpr ⟨parts, a, dotted.imp fun _ _ =>
    CNumeral.loose, ?_, same⟩⟩
  rw [wrapped_eq (address_small made)]
  exact made

/-- The empty text is taken for the address 0. -/
theorem empty_text_taken : ¬ ∀ x, inet_aton [] = some x ↔ Names [] x := by
  intro meets
  obtain ⟨parts, a, dotted, -, -⟩ := (meets 0).mp (by decide)
  generalize none : ([] : Str) = s at dotted
  cases dotted with
  | last numeral _ =>
    obtain ⟨rfl, rfl⟩ := List.append_eq_nil_iff.mp none.symm
    cases numeral with
    | decimal some => exact some rfl
  | part _ _ => exact absurd none.symm (by simp)

end Embryo.Lib
