import Embryo.Machine.CString
import Embryo.Lib.Div64

namespace Embryo.Lib

open Embryo.Machine

def isdigit (c : UInt8) : Bool := 48 ≤ c && c ≤ 57

def digit (c : UInt8) : Option Nat :=
  if 48 ≤ c ∧ c ≤ 57 then some (c.toNat - 48)
  else if 97 ≤ c ∧ c ≤ 102 then some (c.toNat - 97 + 10)
  else if 65 ≤ c ∧ c ≤ 70 then some (c.toNat - 65 + 10)
  else none

/-- The loop of `_atob`, whose value has 64 bits. -/
def atobLoop (base val : Nat) : Str → Option Nat
  | [] => some val
  | c :: rest =>
    match digit c with
    | none => none
    | some d => if d ≥ base then none else atobLoop base ((val * base % 2^64 + d) % 2^64) rest

def _atob (buf : Str) (base : Nat) : Option Nat := if buf = [] then none else atobLoop base 0 buf

def atob (buf : Str) (base : Int) : Option Nat :=
  let (base, p) : Int × Str :=
    if buf[0]? = some 48 ∧ (buf[1]? = some 120 ∨ buf[1]? = some 88) then (16, buf.drop 2)
    else if buf[0]? = some 111 then (8, buf.drop 1)
    else if buf[0]? = some 45 then (-10, buf.drop 1)
    else (base, buf)
  let base := if base = 0 then 10 else base
  match _atob p base.natAbs with
  | none => none
  | some val => some ((if base < 0 then (2^64 - val) % 2^64 else val) % 2^32)

def llatob (buf : Str) (base : Int) : Option Nat :=
  let (base, p) : Int × Str :=
    if buf[0]? = some 48 ∧ (buf[1]? = some 120 ∨ buf[1]? = some 88) then (16, buf.drop 2)
    else if buf[0]? = some 111 then (8, buf.drop 1)
    else if buf[0]? = some 45 then (-10, buf.drop 1)
    else (base, buf)
  let base := if base = 0 then 10 else base
  match _atob p base.natAbs with
  | none => none
  | some val => some (if base < 0 then (2^64 - val) % 2^64 else val)

def decimal (n : Nat) : Str := (Nat.digits 10 n).reverse.map (fun d => UInt8.ofNat (48 + d))

theorem decimal_length_iff (n k : Nat) : k < (decimal n).length ↔ 10 ^ k ≤ n := by
  rw [decimal, List.length_map, List.length_reverse]
  exact Nat.lt_digits_length_iff (by decide) n

theorem decimal_chars {n : Nat} {c : UInt8} (held : c ∈ decimal n) : 48 ≤ c ∧ c ≤ 57 := by
  obtain ⟨d, inside, rfl⟩ := List.mem_map.mp held
  have small := Nat.digits_lt_base (by decide) (List.mem_reverse.mp inside)
  have all : ∀ d < 10, 48 ≤ UInt8.ofNat (48 + d) ∧ UInt8.ofNat (48 + d) ≤ 57 := by decide
  exact all d small

theorem atobLoop_digits {base : Nat} {glyph : Nat → UInt8}
    (reads : ∀ d < base, digit (glyph d) = some d) (ds : List Nat)
    (small : ∀ d ∈ ds, d < base) (val : Nat) (bound : val < 2^64) :
    atobLoop base val (ds.map glyph) =
      some ((val * base ^ ds.length + Nat.ofDigits base ds.reverse) % 2^64) := by
  induction ds generalizing val with
  | nil =>
    simp only [List.map_nil, atobLoop, List.length_nil, List.reverse_nil, Nat.ofDigits_nil, Nat.pow_zero]
    congr 1
    omega
  | cons d rest ih =>
    have less := small d List.mem_cons_self
    rw [List.map_cons, atobLoop, reads d less]
    simp only
    rw [if_neg (by omega), ih (fun d held => small d (List.mem_cons_of_mem _ held)) _
      (Nat.mod_lt _ (by decide))]
    rw [List.reverse_cons, Nat.ofDigits_append, List.length_reverse, List.length_cons, Nat.ofDigits_singleton,
      pow_succ base rest.length]
    have wrapped : ((val * base % 2^64 + d) % 2^64 * base ^ rest.length) ≡
        (val * base + d) * base ^ rest.length [MOD 2^64] := by
      apply Nat.ModEq.mul_right
      exact (Nat.mod_modEq _ _).trans ((Nat.mod_modEq _ _).add_right _)
    have same : (val * base + d) * base ^ rest.length + Nat.ofDigits base rest.reverse =
        val * (base ^ rest.length * base) + (Nat.ofDigits base rest.reverse + base ^ rest.length *
          d) := by ring
    rw [← same]
    exact congrArg some (wrapped.add_right _)

theorem _atob_digits {base n : Nat} {glyph : Nat → UInt8}
    (reads : ∀ d < base, digit (glyph d) = some d) (wide : 1 < base)
    (pos : n ≠ 0) : _atob ((Nat.digits base n).reverse.map glyph) base = some (n % 2^64) := by
  have written : (Nat.digits base n).reverse.map glyph ≠ [] := by
    rw [ne_eq, List.map_eq_nil_iff, List.reverse_eq_nil_iff]
    exact Nat.digits_ne_nil_iff_ne_zero.mpr pos
  rw [_atob, if_neg written, atobLoop_digits reads _ _ 0 (by decide)]
  · rw [List.reverse_reverse, Nat.ofDigits_digits, Nat.zero_mul, Nat.zero_add]
  · exact fun d held => Nat.digits_lt_base wide (List.mem_reverse.mp held)

def digitChar (upper : Bool) (d : Nat) : UInt8 :=
  let c := UInt8.ofNat d
  if 10 ≤ c.toInt8 then c - 10 + (if upper then 65 else 97) else c + 48

def digitLoop (divide : Nat → Nat → Option (Nat × Nat)) (upper : Bool) (base : Nat) :
    Nat → Nat → Str → Option Str
  | 0, value, tmp => if value = 0 then some tmp else none
  | room + 1, value, tmp =>
    if value = 0 then some tmp else
    match divide value base with
    | none => none
    | some (quotient, d) => digitLoop divide upper base room quotient (tmp ++ [digitChar upper d])

def divisor (base : Int) : Nat := if base = -10 then 10 else if base = -16 then 16 else (base % 2^32).toNat

def baseText (bits room : Nat) (divide : Nat → Nat → Option (Nat × Nat)) (value : Nat)
    (base : Int) : Option Str :=
  if value = 0 then some [48] else
  let neg := base = -10 ∧ value.testBit (bits - 1)
  let value := if neg then (2^bits - value) % 2^bits else value
  match digitLoop divide (base = -16) (divisor base) room value [] with
  | none => none
  | some tmp =>
    if neg then if tmp.length < room then some (tmp ++ [45]).reverse else none
    else some tmp.reverse

def btoa (value : Nat) (base : Int) : Option Str :=
  baseText 32 34 (fun value base => if base = 0 then none else some (value / base, value % base)) value base

def llbtoa (value : Nat) (base : Int) : Option Str := baseText 64 66 __div64_u32 value base

theorem digitLoop_digits {divide : Nat → Nat → Option (Nat × Nat)} {upper : Bool} {base : Nat}
    {bits room value : Nat} (exact : ∀ v < 2^bits, divide v base = some (v / base, v % base))
    (wide : 1 < base) (bound : value < 2^bits) (fits : (Nat.digits base value).length ≤ room)
    (tmp : Str) :
    digitLoop divide upper base room value tmp =
      some (tmp ++ (Nat.digits base value).map (digitChar upper)) := by
  induction room generalizing value tmp with
  | zero =>
    have none : value = 0 := by
      rw [← Nat.digits_eq_nil_iff_eq_zero (b := base)]
      exact List.length_eq_zero_iff.mp (by omega)
    rw [digitLoop, if_pos none, none, Nat.digits_zero, List.map_nil, List.append_nil]
  | succ room ih =>
    rw [digitLoop]
    split
    next none => rw [none, Nat.digits_zero, List.map_nil, List.append_nil]
    next more =>
      have split := Nat.digits_def' wide (Nat.pos_of_ne_zero more)
      have less : value / base < 2^bits := Nat.lt_of_le_of_lt (Nat.div_le_self _ _) bound
      rw [split, List.length_cons] at fits
      rw [exact value bound]
      simp only
      rw [ih less (by omega), split, List.map_cons, List.append_assoc, List.singleton_append]

theorem digitChar_reads (upper : Bool) : ∀ d < 16, digit (digitChar upper d) = some d := by
  cases upper <;> decide

theorem digitChar_plain (upper : Bool) : ∀ d < 16, digitChar upper d ∉ [120, 88, 111, 45] := by
  cases upper <;> decide

theorem llatob_plain {buf : Str} {base : Nat} (plain : ∀ c ∈ buf, c ∉ [120, 88, 111, 45]) (pos : 0 < base) :
    llatob buf base = _atob buf base := by
  have absent : ∀ {i : Nat} {c : UInt8}, c ∈ [120, 88, 111, 45] → ¬ buf[i]? = some c :=
    fun held found => plain _ (List.mem_of_getElem? found) held
  unfold llatob
  rw [if_neg (fun hex => hex.2.elim (absent (by decide)) (absent (by decide))), if_neg (absent (by decide)),
    if_neg (absent (by decide))]
  simp only [if_neg (show ¬ (base : Int) = 0 by omega), if_neg (show ¬ (base : Int) < 0 by omega),
    Int.natAbs_natCast]
  cases _atob buf base <;> rfl

theorem atob_llatob (buf : Str) (base : Int) : atob buf base = (llatob buf base).map (· % 2^32) := by
  unfold atob llatob
  simp only
  split <;> rfl

def written (upper : Bool) (base value : Nat) : Str := ((Nat.digits base value).map (digitChar upper)).reverse

theorem written_plain {upper : Bool} {base value : Nat} (wide : 1 < base) (narrow : base ≤ 16) :
    ∀ c ∈ written upper base value, c ∉ [120, 88, 111, 45] := by
  intro c held
  obtain ⟨d, inside, rfl⟩ := List.mem_map.mp (List.mem_reverse.mp held)
  exact digitChar_plain upper d (Nat.lt_of_lt_of_le (Nat.digits_lt_base wide inside) narrow)

theorem _atob_written {upper : Bool} {base value : Nat} (wide : 1 < base) (narrow : base ≤ 16)
    (pos : value ≠ 0) (bound : value < 2^64) : _atob (written upper base value) base = some value := by
  rw [written, ← List.map_reverse, _atob_digits (fun d less => digitChar_reads upper d (by omega)) wide pos,
    Nat.mod_eq_of_lt bound]

/-- The bases that the texts are written in: unsigned and signed decimal, and both cases of hexadecimal. -/
def bases : List Int := [10, -10, 16, -16]

theorem divisor_used : ∀ base ∈ bases, divisor base = base.natAbs ∧ 1 < base.natAbs ∧ base.natAbs ≤ 16 := by
  decide

theorem digits_fit {bits room base value : Nat} (wide : 1 < base) (bound : value < 2^bits)
    (fits : bits ≤ room) :
    (Nat.digits base value).length ≤ room := by
  apply Nat.le_trans _ fits
  rw [Nat.digits_length_le_iff wide]
  exact Nat.lt_of_lt_of_le bound (Nat.pow_le_pow_left wide bits)

section

variable {bits room value : Nat} {divide : Nat → Nat → Option (Nat × Nat)} {base : Int}
  (exact : ∀ b v, 0 < b → b < 2^32 → v < 2^bits → divide v b = some (v / b, v % b))
  (fits : bits < room) (pos : value ≠ 0) (bound : value < 2^bits) (used : base ∈ bases)

include exact fits bound used in
theorem digitLoop_used :
    digitLoop divide (base = -16) (divisor base) room value [] =
      some ((Nat.digits base.natAbs value).map (digitChar (base = -16))) := by
  obtain ⟨same, wide, narrow⟩ := divisor_used base used
  rw [same]
  exact digitLoop_digits (fun v less => exact base.natAbs v (by omega) (by omega) less) wide bound
    (digits_fit wide bound (Nat.le_of_lt fits)) []

include exact fits pos bound used in
theorem baseText_unsigned (unsigned : ¬ (base = -10 ∧ value.testBit (bits - 1))) :
    baseText bits room divide value base = some (written (base = -16) base.natAbs value) := by
  rw [baseText, if_neg pos]
  simp only [if_neg unsigned]
  rw [digitLoop_used exact fits bound used]
  rfl

include exact fits bound in
theorem baseText_signed (signed : value.testBit (bits - 1)) :
    baseText bits room divide value (-10) = some (45 :: written false 10 (2^bits - value)) := by
  have pos : value ≠ 0 := by
    rintro rfl
    rw [Nat.zero_testBit] at signed
    exact absurd signed (by decide)
  have less : 2^bits - value < 2^bits := by omega
  rw [baseText, if_neg pos]
  simp only [signed, and_self, if_true, Nat.mod_eq_of_lt less]
  rw [digitLoop_used exact fits less (by decide)]
  simp only
  rw [if_pos, List.reverse_append]
  · rfl
  · rw [List.length_map]
    exact Nat.lt_of_le_of_lt (digits_fit (by decide) less (Nat.le_refl bits)) fits

theorem llatob_minus (rest : Str) (base : Int) :
    llatob (45 :: rest) base = (_atob rest 10).map fun val => (2^64 - val) % 2^64 := by
  have hex : ¬ (45 : UInt8) = 48 := by decide
  have octal : ¬ (45 : UInt8) = 111 := by decide
  unfold llatob
  simp only [List.getElem?_cons_zero, Option.some.injEq, hex, octal, false_and, if_false, if_true,
    List.drop_one, List.tail_cons,
    if_neg (show ¬ (-10 : Int) = 0 by decide), if_pos (show (-10 : Int) < 0 by decide),
      show (-10 : Int).natAbs = 10 from rfl]
  cases _atob rest 10 <;> rfl

theorem negated {bits value : Nat} (fits : bits ≤ 64) (bound : value < 2^bits) :
    (2^64 - (2^bits - value)) % 2^64 % 2^bits = value := by
  have power : 2^64 = 2^bits * 2^(64 - bits) := by rw [← pow_add, Nat.add_sub_cancel' fits]
  have whole : 2^64 = 2^bits + 2^bits * (2^(64 - bits) - 1) := by
    have less : 2^bits ≤ 2^bits * 2^(64 - bits) := Nat.le_mul_of_pos_right _ (Nat.pow_pos (by decide))
    rw [Nat.mul_sub, Nat.mul_one, ← power] at *
    omega
  have inside : (2^64 - (2^bits - value)) % 2^64 = value + 2^bits * (2^(64 - bits) - 1) := by omega
  rw [inside, Nat.add_mul_mod_self_left, Nat.mod_eq_of_lt bound]

variable (room) in
include exact fits bound used in
theorem baseText_reads (narrow : bits ≤ 64) :
    ∃ text v, baseText bits room divide value base = some text ∧ llatob text base.natAbs = some v ∧
      v % 2^bits = value ∧
      v < 2^64 := by
  obtain ⟨-, more, less⟩ := divisor_used base used
  have small : value < 2^64 := Nat.lt_of_lt_of_le bound (Nat.pow_le_pow_right (by decide) narrow)
  by_cases zero : value = 0
  · have reads : ∀ base ∈ bases, llatob [48] base.natAbs = some 0 := by decide
    exact ⟨[48], 0, if_pos zero, reads base used, by rw [zero, Nat.zero_mod], by decide⟩
  by_cases signed : base = -10 ∧ value.testBit (bits - 1)
  · obtain ⟨rfl, top⟩ := signed
    have magnitude : 2^bits - value < 2^64 :=
      Nat.lt_of_lt_of_le (by omega) (Nat.pow_le_pow_right (by decide) narrow)
    refine ⟨_, _, baseText_signed exact fits bound top, ?_, negated narrow bound, Nat.mod_lt _ (by decide)⟩
    rw [llatob_minus, _atob_written (by decide) (by decide) (by omega) magnitude]
    rfl
  · refine ⟨_, value, baseText_unsigned exact fits zero bound used signed, ?_, Nat.mod_eq_of_lt bound, small⟩
    rw [llatob_plain (written_plain more less) (by omega), _atob_written more less zero small]

end

def Numeral (base : Nat) (s : Str) : Prop := s ≠ [] ∧ ∀ c ∈ s, ∃ d, digit c = some d ∧ d < base

def unmarked (base : Int) : Str → Int × Str
  | 48 :: 120 :: rest => (16, rest)
  | 48 :: 88 :: rest => (16, rest)
  | 111 :: rest => (8, rest)
  | 45 :: rest => (-10, rest)
  | buf => (if base = 0 then 10 else base, buf)

theorem atobLoop_isSome {base val : Nat} {s : Str} :
    (atobLoop base val s).isSome ↔ ∀ c ∈ s, ∃ d, digit c = some d ∧ d < base := by
  induction s generalizing val with
  | nil => simp [atobLoop]
  | cons c s ih =>
    rw [atobLoop, List.forall_mem_cons]
    cases stands : digit c with
    | none => simp
    | some d =>
      by_cases large : d ≥ base
      · simp [large]
      · simp only [if_neg large]
        rw [ih]
        simp only [Option.some.injEq, exists_eq_left', Nat.lt_of_not_ge large, true_and]

theorem _atob_isSome {base : Nat} {s : Str} : (_atob s base).isSome ↔ Numeral base s := by
  rw [_atob, Numeral]
  by_cases empty : s = []
  · simp [empty]
  · rw [if_neg empty, atobLoop_isSome]
    simp [empty]

theorem starts {a : UInt8} {buf : Str} (first : buf[0]? = some a) : buf = a :: buf.drop 1 := by
  cases buf with
  | nil => exact absurd first (by simp)
  | cons c rest => rw [show c = a by simpa using first, List.drop_one, List.tail_cons]

theorem llatob_unmarked (buf : Str) (base : Int) :
    llatob buf base = (_atob (unmarked base buf).2 (unmarked base buf).1.natAbs).map fun val =>
      if (unmarked base buf).1 < 0 then (2^64 - val) % 2^64 else val := by
  have settled : ∀ (b : Int) (p : Str), (match _atob p b.natAbs with
      | none => none
      | some val => some (if b < 0 then (2^64 - val) % 2^64 else val)) =
      (_atob p b.natAbs).map fun val => if b < 0 then (2^64 - val) % 2^64 else val := by
    intro b p
    cases _atob p b.natAbs <;> rfl
  unfold llatob
  fun_cases unmarked base buf with
  | case1 rest => exact settled 16 rest
  | case2 rest => exact settled 16 rest
  | case3 rest => exact settled 8 rest
  | case4 rest => exact settled (-10) rest
  | case5 buf lower upper octal minus =>
    have hex : ¬ (buf[0]? = some 48 ∧ (buf[1]? = some 120 ∨ buf[1]? = some 88)) := by
      rintro ⟨zero, second⟩
      have tail : ∀ {c}, buf[1]? = some c → buf = 48 :: c :: (buf.drop 1).drop 1 := fun {c} held =>
        (starts zero).trans (congrArg (48 :: ·) (starts (List.getElem?_drop.trans held)))
      exact second.elim (fun held => lower _ (tail held)) fun held => upper _ (tail held)
    rw [if_neg hex, if_neg fun held => octal _ (starts held), if_neg fun held => minus _ (starts held)]
    simp only
    by_cases zero : base = 0
    · simp only [if_pos zero]
      exact settled 10 buf
    · simp only [if_neg zero]
      exact settled base buf

theorem llatob_isSome (buf : Str) (base : Int) :
    (llatob buf base).isSome ↔ Numeral (unmarked base buf).1.natAbs (unmarked base buf).2 := by
  rw [llatob_unmarked, Option.isSome_map, _atob_isSome]

theorem exact_division {base value : Nat} (pos : 0 < base) :
    (if base = 0 then none else some (value / base, value % base)) = some (value / base, value % base) :=
  if_neg (Nat.pos_iff_ne_zero.mp pos)

/-- The two readers undo the two writers, and read nothing but numerals. -/
theorem numbers_round_trip :
    (∀ value < 2^32, ∀ base ∈ bases, ∃ text, btoa value base = some text ∧
      atob text base.natAbs = some value) ∧
    (∀ value < 2^64, ∀ base ∈ bases, ∃ text, llbtoa value base = some text ∧
      llatob text base.natAbs = some value) ∧
    (∀ buf base, (atob buf base).isSome ↔ Numeral (unmarked base buf).1.natAbs (unmarked base buf).2) ∧
    (∀ buf base, (llatob buf base).isSome ↔ Numeral (unmarked base buf).1.natAbs (unmarked base buf).2) := by
  refine ⟨?_, ?_, ?_, llatob_isSome⟩
  · intro value bound base used
    obtain ⟨text, v, prints, reads, same, -⟩ :=
      baseText_reads 34 (fun b v pos _ _ => exact_division pos) (by decide) bound used (by decide)
    exact ⟨text, prints, by rw [atob_llatob, reads, Option.map_some, same]⟩
  · intro value bound base used
    obtain ⟨text, v, prints, reads, same, small⟩ :=
      baseText_reads 66 (fun b v pos wide less => div64_exact pos wide less) (by decide) bound used
        (by decide)
    exact ⟨text, prints, by rw [reads, ← same, Nat.mod_eq_of_lt small]⟩
  · intro buf base
    rw [atob_llatob, Option.isSome_map, llatob_isSome]

theorem least_round_trips : ∃ text, btoa (2^31) (-10) = some text ∧ atob text 10 = some (2^31) :=
  numbers_round_trip.1 (2^31) (by decide) (-10) (by decide)

end Embryo.Lib
