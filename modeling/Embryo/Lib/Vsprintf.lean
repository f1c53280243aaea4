import Embryo.Lib.Cvt

namespace Embryo.Lib

open Embryo.Machine

inductive Align where
  | rjust
  | ljust
  | rjust0
  | center
deriving DecidableEq

inductive Arg where
  | int (v : UInt32)
  | quad (v : UInt64)
  | ptr (s : Option Str)

def toInt (n : Int) : Int := (BitVec.ofInt 32 n).toInt

def strncpy (d s : List UInt8) : Option (List UInt8) :=
  if s.length ≤ d.length then some (s ++ d.drop s.length) else none

def strIn (d : List UInt8) : Option Str := if 0 ∈ d then some (d.takeWhile (· ≠ 0)) else none

/-- What the modifiers of a conversion have set, with the scratch buffer and the arguments to come. -/
structure Scan where
  align : Align
  width : Int
  trunc : Int
  haddot : Bool
  longlong : Bool
  digitbuf : List UInt8
  args : List Arg

def Scan.begin (digitbuf : List UInt8) (args : List Arg) : Scan :=
  ⟨.rjust, 0, 0, false, false, digitbuf, args⟩

def Scan.setWidth (s : Scan) (digit : Int) : Scan :=
  if s.haddot then { s with trunc := digit } else { s with width := digit }

/-- The characters `"cdefgiopsuxEGX%"`. -/
def conversions : Str := [99, 100, 101, 102, 103, 105, 111, 112, 115, 117, 120, 69, 71, 88, 37]

/-- The inner loop of `vsprintf`, up to the conversion character or the end of the format. -/
def modifiers : Nat → Str → Scan → Option (Scan × Str)
  | 0, _, _ => none
  | _ + 1, [], s => some (s, [])
  | fuel + 1, c :: rest, s =>
    if c ∈ conversions then some (s, c :: rest)
    else if c = 45 then modifiers fuel rest { s with align := .ljust }
    else if c = 42 then
      match s.args with
      | .int v :: args => modifiers fuel rest ({ s with args := args }.setWidth (toInt v.toNat))
      | _ => none
    else if c = 126 then modifiers fuel rest { s with align := .center }
    else if c = 48 then modifiers fuel rest (if s.align = .rjust then { s with align := .rjust0 } else s)
    else if c = 46 then modifiers fuel rest { s with haddot := true }
    else if c = 108 then
      if rest.head? = some 108 then modifiers fuel rest.tail { s with longlong := true }
        else modifiers fuel rest s
    else if isdigit c then
      match strncpy s.digitbuf ((c :: rest).takeWhile isdigit) with
      | none => none
      | some digitbuf =>
        match (strIn digitbuf).bind (atob · 10) with
        | none => none
        | some digit =>
          modifiers fuel ((c :: rest).dropWhile isdigit)
            ({ s with digitbuf := digitbuf }.setWidth (toInt digit))
    else modifiers fuel rest s

def baseOf (c : UInt8) : Option Int :=
  if c = 100 ∨ c = 105 then some (-10)
  else if c = 117 then some 10
  else if c = 120 then some 16
  else if c = 88 then some (-16)
  else if c = 111 then some 8
  else if c = 112 then some 16
  else none

def null : Str := [40, 110, 117, 108, 108, 41]

/-- The text of a conversion before it is padded, what goes before it, and the arguments left over.
    For a floating point number nothing is written. -/
def convert (c : UInt8) (longlong : Bool) (args : List Arg) : Option (Str × Str × List Arg) :=
  if c = 37 then some ([], [37], args)
  else if c = 99 then
    match args with
    | .int v :: args => some ([], if v.toUInt8 = 0 then [] else [v.toUInt8], args)
    | _ => none
  else if c = 115 then
    match args with
    | .ptr s :: args => some ([], s.getD null, args)
    | _ => none
  else
    match baseOf c with
    | none => none
    | some base =>
      let before : Str := if c = 112 then [48, 120] else []
      match args, longlong with
      | .quad v :: args, true => (llbtoa v.toNat base).map (before, ·, args)
      | .int v :: args, false => (btoa v.toNat base).map (before, ·, args)
      | _, _ => none

def strichr (p : Str) (c : UInt8) : Str := c :: p

def strcat (d s : Str) : Str := d ++ s

def shortfall (width : Int) (len : Nat) : Int := toInt (width - len)

def strFmt (buf : Str) (width : Int) (align : Align) : Str :=
  let len := shortfall width buf.length
  match align with
  | .ljust => (strcat · [32])^[len.toNat] buf
  | .rjust => (strichr · 32)^[len.toNat] buf
  | .rjust0 => (strichr · 48)^[len.toNat] buf
  | .center =>
    let m := len.tdiv 2
    (strcat · [32])^[(len - m).toNat] ((strichr · 32)^[m.toNat] buf)

/-- The passes of the outer loop of `vsprintf`, with what each of them adds to the buffer. -/
def passes : Nat → Str → List UInt8 → List Arg → Option (List Str)
  | 0, _, _, _ => none
  | _ + 1, [], _, _ => some []
  | fuel + 1, c :: rest, digitbuf, args =>
    if c = 37 then
      match modifiers (rest.length + 1) rest (.begin digitbuf args) with
      | none => none
      | some (_, []) => some []
      | some (s, conv :: rest) =>
        match convert conv s.longlong s.args with
        | none => none
        | some (before, text, args) =>
          (passes fuel rest s.digitbuf args).map ((before ++ strFmt text s.width s.align) :: ·)
    else (passes fuel rest digitbuf args).map ([c] :: ·)

/-- The buffer after `vsprintf`, which has no result where it reads or writes what is not there. -/
def vsprintf (fmt : Str) (args : List Arg) : Option Str :=
  (passes (fmt.length + 1) fmt (List.replicate 20 0) args).map List.flatten

inductive Flag where
  | minus
  | zero
  | tilde

def Flag.char : Flag → UInt8
  | minus => 45
  | zero => 48
  | tilde => 126

def Flag.align : Flag → Align
  | minus => .ljust
  | zero => .rjust0
  | tilde => .center

inductive Kind where
  | d
  | i
  | u
  | x
  | X
  | o

def Kind.char : Kind → UInt8
  | d => 100
  | i => 105
  | u => 117
  | x => 120
  | X => 88
  | o => 111

def numeral (upper : Bool) (base value : Nat) : Str := if value = 0 then [48] else written upper base value

def Kind.text (kind : Kind) (bits value : Nat) : Str :=
  match kind with
  | d | i =>
    if value < 2 ^ (bits - 1) then numeral false 10 value else 45 :: numeral false 10 (2 ^ bits - value)
  | u => numeral false 10 value
  | x => numeral false 16 value
  | X => numeral true 16 value
  | o => numeral false 8 value

/-- A conversion character with its argument. The `ll` is part of the type of a number, and of no
    meaning for the others. -/
inductive Value where
  | char (ll : Bool) (v : UInt32)
  | str (ll : Bool) (s : Option { s : Str // 0 ∉ s })
  | int (kind : Kind) (v : UInt32)
  | quad (kind : Kind) (v : UInt64)

namespace Value

def conversion : Value → UInt8
  | char _ _ => 99
  | str _ _ => 115
  | int kind _ => kind.char
  | quad kind _ => kind.char

def ll : Value → Bool
  | char ll _ => ll
  | str ll _ => ll
  | int _ _ => false
  | quad _ _ => true

def arg : Value → Arg
  | char _ v => .int v
  | str _ s => .ptr (s.map Subtype.val)
  | int _ v => .int v
  | quad _ v => .quad v

def text : Value → Str
  | char _ v => [v.toUInt8]
  | str _ s => (s.map Subtype.val).getD null
  | int kind v => kind.text 32 v.toNat
  | quad kind v => kind.text 64 v.toNat

end Value

def Align.pad (align : Align) (fill : Nat) (text : Str) : Str :=
  match align with
  | .ljust => text ++ List.replicate fill 32
  | .rjust => List.replicate fill 32 ++ text
  | .rjust0 => List.replicate fill 48 ++ text
  | .center => List.replicate (fill / 2) 32 ++ text ++ List.replicate (fill - fill / 2) 32

structure Conv where
  flag : Option Flag
  width : Nat
  value : Value

def Conv.align (c : Conv) : Align := (c.flag.map Flag.align).getD .rjust

def Conv.digits (c : Conv) : List Nat := (Nat.digits 10 c.width).reverse

def glyph (d : Nat) : UInt8 := UInt8.ofNat (48 + d)

def Conv.render (c : Conv) : Str :=
  (c.flag.map Flag.char).toList ++ (c.digits.map glyph ++
    ((if c.value.ll then [108, 108] else []) ++ [c.value.conversion]))

def Conv.written (c : Conv) : Str := c.align.pad (c.width - c.value.text.length) c.value.text

inductive Item where
  | literal (c : UInt8) (plain : c ≠ 0 ∧ c ≠ 37)
  | conv (c : Conv)

def Item.render : Item → Str
  | literal c _ => [c]
  | conv c => 37 :: c.render

def Item.arg : Item → Option Arg
  | literal _ _ => none
  | conv c => some c.value.arg

def Item.written : Item → Str
  | literal c _ => [c]
  | conv c => c.written

def Formats (items : List Item) : Prop :=
  passes ((items.flatMap Item.render).length + 1) (items.flatMap Item.render) (List.replicate 20 0)
    (items.filterMap Item.arg) =
    some (items.map Item.written)

/-- Digits written over those that are there already, of which the last stay where the new ones are fewer. -/
def overlay (left own : List Nat) : List Nat := own ++ left.drop own.length

def fieldWidth (digits : List Nat) : Int := toInt (Nat.ofDigits 10 digits.reverse : Nat)

def Conv.effective (c : Conv) (left : List Nat) : Int :=
  if c.width = 0 then 0 else fieldWidth (overlay left c.digits)

/-- The digits fit, the width they give with those that are left pads like the width itself, and no
    character is a terminator. -/
structure Conv.Padded (c : Conv) (left : List Nat) : Prop where
  fits : c.digits.length < 20
  pads : (shortfall (c.effective left) c.value.text.length).toNat = c.width - c.value.text.length
  ends : ∀ ll v, c.value = .char ll v → v.toUInt8 ≠ 0

def Independent : List Nat → List Item → Prop
  | _, [] => True
  | left, .literal _ _ :: rest => Independent left rest
  | left, .conv c :: rest => c.Padded left ∧ Independent (overlay left c.digits) rest

section

variable {text : Str} {left own : List Nat} {fuel : Nat}

theorem strichr_iterate (c : UInt8) (n : Nat) (text : Str) :
    (strichr · c)^[n] text = List.replicate n c ++ text := by
  induction n with
  | zero => rfl
  | succ n ih => rw [Function.iterate_succ_apply', ih, strichr, List.replicate_succ, List.cons_append]

theorem strcat_iterate (c : UInt8) (n : Nat) (text : Str) :
    (strcat · [c])^[n] text = text ++ List.replicate n c := by
  induction n with
  | zero => exact (List.append_nil _).symm
  | succ n ih => rw [Function.iterate_succ_apply', ih, strcat, List.append_assoc, ← List.replicate_succ']

theorem strFmt_pad (text : Str) (width : Int) (align : Align) :
    strFmt text width align = align.pad (shortfall width text.length).toNat text := by
  simp only [strFmt]
  generalize shortfall width text.length = len
  cases align with
  | ljust => exact strcat_iterate 32 _ text
  | rjust => exact strichr_iterate 32 _ text
  | rjust0 => exact strichr_iterate 48 _ text
  | center =>
    have half : (len.tdiv 2).toNat = len.toNat / 2 ∧ (len - len.tdiv 2).toNat =
        len.toNat - len.toNat / 2 := by
      rcases Int.le_total 0 len with positive | negative
      · rw [Int.tdiv_eq_ediv_of_nonneg positive]
        omega
      · have below : len.tdiv 2 ≤ 0 ∧ len ≤ len.tdiv 2 := by
          rw [← Int.neg_neg len, Int.neg_tdiv, Int.tdiv_eq_ediv_of_nonneg (by omega)]
          omega
        omega
    simp only [Align.pad, strichr_iterate, strcat_iterate, half.1, half.2]

theorem Align.pad_length (align : Align) (fill : Nat) (text : Str) :
    (align.pad fill text).length = fill + text.length := by
  cases align <;> simp only [Align.pad, List.length_append, List.length_replicate] <;> omega

theorem Align.pad_inj (align : Align) {fill fill' : Nat} :
    align.pad fill text = align.pad fill' text ↔ fill = fill' := by
  constructor
  · intro same
    have lengths := congrArg List.length same
    rw [pad_length, pad_length] at lengths
    omega
  · exact congrArg fun fill => align.pad fill text

theorem glyph_digit : ∀ d < 10, isdigit (glyph d) = true ∧ digit (glyph d) = some d ∧
    glyph d ∉ conversions ∧ glyph d ∉ [120, 88, 111, 45] ∧
    glyph d ∉ [0, 45, 42, 126, 46, 108] ∧ (glyph d = 48 → d = 0) := by
  decide

theorem atob_digits {ds : List Nat} (filled : ds ≠ []) (small : ∀ d ∈ ds, d < 10) :
    atob (ds.map glyph) 10 = some (Nat.ofDigits 10 ds.reverse % 2 ^ 64 % 2 ^ 32) := by
  have plain : ∀ c ∈ ds.map glyph, c ∉ [120, 88, 111, 45] := by
    intro c member
    obtain ⟨d, inside, rfl⟩ := List.mem_map.mp member
    exact (glyph_digit d (small d inside)).2.2.2.1
  have reads : ∀ d < 10, digit (glyph d) = some d := fun d low => (glyph_digit d low).2.1
  have read : llatob (ds.map glyph) 10 = _ := llatob_plain plain (by decide)
  rw [atob_llatob, read, _atob, if_neg (by simpa using filled),
    atobLoop_digits reads ds small 0 (by decide), Nat.zero_mul, Nat.zero_add,
    Option.map_some]

theorem toInt_mod (n : Nat) : toInt (n % 2 ^ 64 % 2 ^ 32 : Nat) = toInt n := by
  have same : BitVec.ofInt 32 ((n % 2 ^ 64 % 2 ^ 32 : Nat) : Int) = BitVec.ofInt 32 (n : Int) := by
    rw [BitVec.ofInt_natCast, BitVec.ofInt_natCast]
    apply BitVec.eq_of_toNat_eq
    simp only [BitVec.toNat_ofNat]
    omega
  rw [toInt, same, toInt]

def bufOf (left : List Nat) : List UInt8 := left.map glyph ++ List.replicate (20 - left.length) 0

theorem glyph_nonzero {ds : List Nat} (small : ∀ d ∈ ds, d < 10) : 0 ∉ ds.map glyph := by
  intro member
  obtain ⟨d, inside, zero⟩ := List.mem_map.mp member
  exact (glyph_digit d (small d inside)).2.2.2.2.1 (by rw [zero]; exact List.mem_cons_self)

theorem strncpy_bufOf (fits : left.length ≤ 20) : strncpy (bufOf left) (own.map glyph) =
    if own.length ≤ 20 then some (bufOf (overlay left own)) else none := by
  have size : (bufOf left).length = 20 := by
    rw [bufOf, List.length_append, List.length_map, List.length_replicate]
    omega
  rw [strncpy, size, List.length_map]
  refine if_congr Iff.rfl (congrArg some ?_) rfl
  rw [bufOf, bufOf, overlay, List.map_append, List.append_assoc, List.drop_append, List.map_drop,
    List.length_map, List.drop_replicate,
    List.length_append, List.length_drop]
  congr 3
  omega

theorem strIn_bufOf (fits : left.length ≤ 20) (small : ∀ d ∈ left, d < 10) :
    strIn (bufOf left) = if left.length < 20 then some (left.map glyph) else none := by
  have clear := glyph_nonzero small
  rw [strIn, bufOf]
  by_cases short : left.length < 20
  · obtain ⟨k, free⟩ : ∃ k, 20 - left.length = k + 1 := ⟨19 - left.length, by omega⟩
    have text : ∀ c ∈ left.map glyph, decide (c ≠ 0) = true := by
      intro c member
      rw [decide_eq_true_iff]
      rintro rfl
      exact clear member
    rw [if_pos short, free, List.replicate_succ, if_pos (List.mem_append_right _ List.mem_cons_self),
      List.takeWhile_append_of_pos text, List.takeWhile_cons_of_neg (by simp), List.append_nil]
  · have full : 20 - left.length = 0 := by omega
    rw [if_neg short, full, List.replicate_zero, List.append_nil, if_neg clear]

theorem overlay_small (small : ∀ d ∈ left, d < 10) (small' : ∀ d ∈ own, d < 10) :
    ∀ d ∈ overlay left own, d < 10 := by
  intro d member
  rcases List.mem_append.mp member with inside | inside
  · exact small' d inside
  · exact small d (List.mem_of_mem_drop inside)

theorem overlay_length (left own : List Nat) : (overlay left own).length = max own.length left.length := by
  rw [overlay, List.length_append, List.length_drop]
  omega

theorem modifiers_width {s : Scan} {tail : Str} (first : own.head? ≠ some 0) (filled : own ≠ [])
    (small : ∀ d ∈ own, d < 10)
    (smallLeft : ∀ d ∈ left, d < 10) (fits : left.length < 20) (stop : ∀ c ∈ tail.head?, isdigit c = false)
    (buf : s.digitbuf = bufOf left) (dot : s.haddot = false) :
    modifiers (fuel + 1) (own.map glyph ++ tail) s = if own.length < 20 then
      modifiers fuel tail { s with
        digitbuf := bufOf (overlay left own), width := fieldWidth (overlay left own) } else none := by
  obtain ⟨d, ds, rfl⟩ := List.exists_cons_of_ne_nil filled
  have run : ((d :: ds).map glyph ++ tail).takeWhile isdigit = (d :: ds).map glyph ∧
      ((d :: ds).map glyph ++ tail).dropWhile isdigit = tail := by
    have all : ∀ c ∈ (d :: ds).map glyph, isdigit c = true := by
      intro c member
      obtain ⟨e, inside, rfl⟩ := List.mem_map.mp member
      exact (glyph_digit e (small e inside)).1
    rw [List.takeWhile_append_of_pos all, List.dropWhile_append_of_pos all]
    cases tail with
    | nil => exact ⟨List.append_nil _, rfl⟩
    | cons c rest =>
      have other := stop c rfl
      exact ⟨by
        rw [List.takeWhile_cons_of_neg (by simp [other]), List.append_nil],
          List.dropWhile_cons_of_neg (by simp [other])⟩
  obtain ⟨digit', -, plain, -, others, zero⟩ := glyph_digit d (small d List.mem_cons_self)
  have nonzero : glyph d ≠ 48 := fun same => first (by rw [zero same]; rfl)
  simp only [List.mem_cons, List.not_mem_nil, or_false, not_or] at others
  obtain ⟨-, minus, star, tilde, dot', ell⟩ := others
  rw [List.map_cons, List.cons_append] at run ⊢
  rw [modifiers, if_neg plain, if_neg minus, if_neg star, if_neg tilde, if_neg nonzero, if_neg dot',
    if_neg ell, if_pos digit', run.1, run.2,
    ← List.map_cons, buf, strncpy_bufOf fits.le]
  have smallNew := overlay_small smallLeft small
  have length := overlay_length left (d :: ds)
  by_cases short : (d :: ds).length < 20
  · have inside : (overlay left (d :: ds)).length < 20 := by omega
    rw [if_pos short, if_pos short.le]
    simp only [strIn_bufOf inside.le smallNew, if_pos inside, Option.bind_some]
    rw [atob_digits (by rw [overlay]; exact List.cons_ne_nil _ _) smallNew]
    simp only [Scan.setWidth, dot, Bool.false_eq_true, if_false, toInt_mod]
    rfl
  · rw [if_neg short]
    by_cases whole : (d :: ds).length ≤ 20
    · rw [if_pos whole]
      have inside : ¬(overlay left (d :: ds)).length < 20 := by omega
      simp only [strIn_bufOf (by omega : (overlay left (d :: ds)).length ≤ 20) smallNew,
        if_neg inside, Option.bind_none]
    · rw [if_neg whole]

theorem Kind.char_mem (kind : Kind) : kind.char ∈ conversions ∧ isdigit kind.char = false := by
  cases kind <;> decide

theorem conversion_mem (v : Value) : v.conversion ∈ conversions ∧ isdigit v.conversion = false := by
  cases v with
  | char => exact (by decide : (99 : UInt8) ∈ conversions ∧ isdigit 99 = false)
  | str => exact (by decide : (115 : UInt8) ∈ conversions ∧ isdigit 115 = false)
  | int kind => exact kind.char_mem
  | quad kind => exact kind.char_mem

theorem modifiers_flag (flag : Flag) (tail : Str) (digitbuf : List UInt8) (args : List Arg) :
    modifiers (fuel + 1) (flag.char :: tail) (.begin digitbuf args) =
      modifiers fuel tail { Scan.begin digitbuf args with align := flag.align } := by
  cases flag <;> rfl

theorem modifiers_end {c : UInt8} (stop : c ∈ conversions) (tail : Str) (s : Scan) :
    modifiers (fuel + 1) (c :: tail) s = some (s, c :: tail) := by
  rw [modifiers, if_pos stop]

theorem modifiers_ll (v : Value) (tail : Str) {s : Scan} (short : s.longlong = false) (enough : 1 < fuel) :
    modifiers fuel ((if v.ll then [108, 108] else []) ++ v.conversion :: tail) s =
      some ({ s with longlong := v.ll }, v.conversion :: tail) := by
  obtain ⟨fuel, rfl⟩ : ∃ rest, fuel = rest + 2 := ⟨fuel - 2, by omega⟩
  cases ll : v.ll with
  | false =>
    rw [if_neg Bool.false_ne_true, List.nil_append, modifiers_end (conversion_mem v).1, ← short]
  | true =>
    have first : modifiers (fuel + 2) (108 :: 108 :: v.conversion :: tail) s =
        modifiers (fuel + 1) (v.conversion :: tail) { s with longlong := true } := rfl
    exact first.trans (modifiers_end (conversion_mem v).1 tail _)

theorem Conv.digits_first (c : Conv) : c.digits.head? ≠ some 0 := by
  intro first
  rw [digits, List.head?_reverse] at first
  have filled : Nat.digits 10 c.width ≠ [] := by
    intro empty
    rw [empty] at first
    cases first
  rw [List.getLast?_eq_some_getLast filled, Option.some.injEq] at first
  exact Nat.getLast_digit_ne_zero 10 (Nat.digits_ne_nil_iff_ne_zero.mp filled) first

theorem Conv.digits_small (c : Conv) : ∀ d ∈ c.digits, d < 10 :=
  fun _ member => Nat.digits_lt_base (by decide) (List.mem_reverse.mp member)

theorem Conv.digits_nil {c : Conv} : c.digits = [] ↔ c.width = 0 := by
  rw [digits, List.reverse_eq_nil_iff, Nat.digits_eq_nil_iff_eq_zero]

theorem modifiers_rest (c : Conv) (tail : Str) {s : Scan} (fits : left.length < 20)
    (small : ∀ d ∈ left, d < 10)
    (buf : s.digitbuf = bufOf left) (width : s.width = 0) (dot : s.haddot = false)
    (short : s.longlong = false)
    (enough : (c.digits.map glyph ++ ((if c.value.ll then [108, 108] else []) ++
      [c.value.conversion])).length < fuel) :
    modifiers fuel (c.digits.map glyph ++ ((if c.value.ll then [108, 108] else []) ++
      c.value.conversion :: tail)) s =
      if c.digits.length < 20 then some ({ s with
        width := c.effective left, longlong := c.value.ll, digitbuf :=
          bufOf (overlay left c.digits) }, c.value.conversion :: tail)
      else none := by
  rw [List.length_append, List.length_append, List.length_map, List.length_singleton] at enough
  by_cases none : c.digits = []
  · rw [none, List.map_nil, List.nil_append, modifiers_ll c.value tail short (by omega),
      if_pos (by decide), Conv.effective,
      if_pos (Conv.digits_nil.mp none), ← width, overlay, List.nil_append, List.length_nil,
        List.drop_zero, ← buf]
  · have filled := List.length_pos_iff.mpr none
    obtain ⟨fuel, rfl⟩ : ∃ rest, fuel = rest + 1 := ⟨fuel - 1, by omega⟩
    have stop : ∀ d ∈ ((if c.value.ll then [108, 108] else []) ++ c.value.conversion :: tail).head?,
        isdigit d = false := by
      intro d first
      cases ll : c.value.ll with
      | false =>
        rw [ll] at first
        cases first
        exact (conversion_mem c.value).2
      | true =>
        rw [ll] at first
        cases first
        rfl
    rw [modifiers_width c.digits_first none c.digits_small small fits stop buf dot, Conv.effective,
      if_neg (Conv.digits_nil.not.mp none)]
    refine if_congr Iff.rfl ?_ rfl
    exact modifiers_ll c.value tail short (by omega)

theorem modifiers_render (c : Conv) (tail : Str) (args : List Arg) (fits : left.length < 20)
    (small : ∀ d ∈ left, d < 10)
    (enough : c.render.length < fuel) : modifiers fuel (c.render ++ tail) (.begin (bufOf left) args) =
      if c.digits.length < 20 then
        some (⟨c.align, c.effective left, 0, false, c.value.ll, bufOf (overlay left c.digits),
          args⟩, c.value.conversion :: tail)
      else none := by
  obtain ⟨flag, width, value⟩ := c
  rw [Conv.render, List.append_assoc, List.append_assoc, List.append_assoc, List.singleton_append]
  cases flag with
  | none => exact modifiers_rest _ tail fits small rfl rfl rfl rfl enough
  | some flag =>
    obtain ⟨fuel, rfl⟩ : ∃ rest, fuel = rest + 1 := ⟨fuel - 1, by omega⟩
    refine (modifiers_flag flag _ _ args).trans ?_
    exact modifiers_rest _ tail fits small rfl rfl rfl rfl (Nat.lt_of_succ_lt_succ enough)

def Kind.base : Kind → Int
  | d => -10
  | i => -10
  | u => 10
  | x => 16
  | X => -16
  | o => 8

section

variable {bits room value : Nat} {divide : Nat → Nat → Option (Nat × Nat)}
  (exact : ∀ b v, 0 < b → b < 2 ^ 32 → v < 2 ^ bits → divide v b = some (v / b, v % b))
  (fits : bits < room) (pos : value ≠ 0) (bound : value < 2 ^ bits)

include exact fits pos bound

theorem baseText_signed_text (some' : 0 < bits) :
    baseText bits room divide value (-10) =
      some (if value < 2 ^ (bits - 1) then numeral false 10 value
        else 45 :: numeral false 10 (2 ^ bits - value)) := by
  have whole := Nat.two_pow_pred_add_two_pow_pred some'
  by_cases low : value < 2 ^ (bits - 1)
  · have positive : ¬value.testBit (bits - 1) := by rw [Nat.testBit_lt_two_pow low]; exact Bool.false_ne_true
    rw [if_pos low, baseText_unsigned exact fits pos bound (by decide) fun both => positive both.2,
      numeral, if_neg pos]
    rfl
  · have high : value / 2 ^ (bits - 1) = 1 := Nat.div_eq_of_lt_le (by omega) (by omega)
    have negative : value.testBit (bits - 1) := by rw [Nat.testBit_eq_decide_div_mod_eq, high]; rfl
    have less : 2 ^ bits - value ≠ 0 := by omega
    rw [if_neg low, baseText_signed exact fits bound negative, numeral, if_neg less]

theorem baseText_octal : baseText bits room divide value 8 = some (numeral false 8 value) := by
  have digits := @digitLoop_digits divide false 8 bits room value
    (fun v => exact 8 v (by decide) (by decide)) (by decide) bound
    (digits_fit (by decide) bound fits.le) []
  rw [baseText, if_neg pos, numeral, if_neg pos]
  simp only [show ¬((8 : Int) = -10) by decide, false_and, if_false]
  rw [show divisor 8 = 8 by decide, show decide ((8 : Int) = -16) = false by decide, digits]
  rfl

omit pos in
theorem baseText_kind (kind : Kind) (some' : 0 < bits) :
    baseText bits room divide value kind.base = some (kind.text bits value) := by
  by_cases zero : value = 0
  · subst zero
    have low : 0 < 2 ^ (bits - 1) := Nat.two_pow_pos _
    cases kind <;> simp [baseText, Kind.text, numeral, low]
  cases kind with
  | d => exact baseText_signed_text exact fits zero bound some'
  | i => exact baseText_signed_text exact fits zero bound some'
  | u =>
    rw [baseText_unsigned exact fits zero bound (by decide) fun both => absurd both.1 (by decide),
      Kind.text, numeral, if_neg zero]
    rfl
  | x =>
    rw [baseText_unsigned exact fits zero bound (by decide) fun both => absurd both.1 (by decide),
      Kind.text, numeral, if_neg zero]
    rfl
  | X =>
    rw [baseText_unsigned exact fits zero bound (by decide) fun both => absurd both.1 (by decide),
      Kind.text, numeral, if_neg zero]
    rfl
  | o => exact baseText_octal exact fits zero bound

end

/-- The text that a conversion leaves in the buffer, which ends where a character is a terminator. -/
def Value.shown : Value → Str
  | .char _ v => if v.toUInt8 = 0 then [] else [v.toUInt8]
  | v => v.text

theorem convert_value (v : Value) (args : List Arg) :
    convert v.conversion v.ll (v.arg :: args) = some ([], v.shown, args) := by
  cases v with
  | char ll v => rfl
  | str ll s => rfl
  | int kind v =>
    have text : btoa v.toNat kind.base = some (kind.text 32 v.toNat) :=
      baseText_kind (fun b v pos _ _ => exact_division pos) (by decide) v.toNat_lt kind (by decide)
    have call : convert kind.char false (.int v :: args) =
      (btoa v.toNat kind.base).map ([], ·, args) := by cases kind <;> rfl
    exact call.trans (by rw [text]; rfl)
  | quad kind v =>
    have text : llbtoa v.toNat kind.base = some (kind.text 64 v.toNat) :=
      baseText_kind (fun b v pos wide less => div64_exact pos wide less) (by decide) v.toNat_lt kind
        (by decide)
    have call : convert kind.char true (.quad v :: args) = (llbtoa v.toNat kind.base).map
      ([], ·, args) := by cases kind <;> rfl
    exact call.trans (by rw [text]; rfl)

theorem shown_eq (v : Value) (ends : ∀ ll n, v = .char ll n → n.toUInt8 ≠ 0) : v.shown = v.text := by
  cases v with
  | char ll n => exact if_neg (ends ll n rfl)
  | _ => rfl

theorem Align.pad_mem (align : Align) (fill : Nat) (text : Str) (c : UInt8)
    (plain : c ≠ 32 ∧ c ≠ 48) : c ∈ align.pad fill text ↔ c ∈ text := by
  cases align <;> simp [pad, List.mem_replicate, plain]

theorem shown_padded (align : Align) (v : Value) (width : Int) (fill : Nat) :
    strFmt v.shown width align = align.pad fill v.text ↔
      (shortfall width v.text.length).toNat = fill ∧ ∀ ll n, v = .char ll n → n.toUInt8 ≠ 0 := by
  rw [strFmt_pad]
  by_cases ends : ∀ ll n, v = .char ll n → n.toUInt8 ≠ 0
  · rw [shown_eq v ends, Align.pad_inj, and_iff_left ends]
  · refine iff_of_false (fun same => ?_) fun both => ends both.2
    push Not at ends
    obtain ⟨ll, n, rfl, zero⟩ := ends
    have member : (0 : UInt8) ∈ align.pad fill (Value.text (.char ll n)) :=
      (align.pad_mem fill _ 0 (by decide)).mpr (by rw [Value.text, zero]; exact List.mem_cons_self)
    rw [← same, align.pad_mem _ _ 0 (by decide), Value.shown, if_pos zero] at member
    cases member

theorem map_cons_iff {α : Type} {o : Option (List α)} {a b : α} {rest : List α} :
    o.map (a :: ·) = some (b :: rest) ↔ a = b ∧ o = some rest := by
  cases o with
  | none => exact iff_of_false nofun fun both => nomatch both.2
  | some l => rw [Option.map_some, Option.some.injEq, List.cons.injEq, Option.some.injEq]

theorem passes_iff (items : List Item) (fits : left.length < 20) (small : ∀ d ∈ left, d < 10)
    (enough : (items.flatMap Item.render).length < fuel) :
    passes fuel (items.flatMap Item.render) (bufOf left)
    (items.filterMap Item.arg) = some (items.map Item.written) ↔
      Independent left items := by
  induction items generalizing left fuel with
  | nil =>
    obtain ⟨fuel, rfl⟩ : ∃ rest, fuel = rest + 1 := ⟨fuel - 1, by omega⟩
    exact iff_of_true rfl True.intro
  | cons item items ih =>
    rw [List.flatMap_cons, List.length_append] at enough
    obtain ⟨fuel, rfl⟩ : ∃ rest, fuel = rest + 1 := ⟨fuel - 1, by omega⟩
    cases item with
    | literal c plain =>
      have shorter : (items.flatMap Item.render).length < fuel := by
        rw [Item.render, List.length_singleton] at enough
        omega
      rw [List.flatMap_cons, Item.render, List.singleton_append, passes, if_neg plain.2]
      exact map_cons_iff.trans ((and_iff_right rfl).trans (ih fits small shorter))
    | conv c =>
      have shorter : (items.flatMap Item.render).length < fuel := by
        rw [Item.render, List.length_cons] at enough
        omega
      have whole : c.render.length < (c.render ++ items.flatMap Item.render).length + 1 := by
        rw [List.length_append]
        omega
      rw [List.flatMap_cons, Item.render, List.cons_append, passes, if_pos rfl,
        modifiers_render c _ _ fits small whole, Independent]
      by_cases short : c.digits.length < 20
      · have room : (overlay left c.digits).length < 20 := by
          rw [overlay_length]
          omega
        have filtered : (Item.conv c :: items).filterMap Item.arg =
          c.value.arg :: items.filterMap Item.arg := rfl
        rw [if_pos short, filtered]
        simp only [convert_value, List.nil_append]
        rw [List.map_cons, map_cons_iff, ih room (overlay_small small c.digits_small) shorter,
          Item.written, Conv.written, shown_padded]
        exact and_congr_left' ⟨fun both => ⟨short, both.1, both.2⟩, fun padded => ⟨padded.pads, padded.ends⟩⟩
      · rw [if_neg short]
        exact iff_of_false nofun fun both => short both.1.fits

end

/-- Every conversion is padded to its own width exactly when the digits that earlier widths leave
    behind make no difference. -/
theorem vsprintf_formats_iff (items : List Item) : Formats items ↔ Independent [] items :=
  passes_iff items (by decide : ([] : List Nat).length < 20) nofun (Nat.lt_succ_self _)

theorem Formats.buffer {items : List Item} (formats : Formats items) :
    vsprintf (items.flatMap Item.render) (items.filterMap Item.arg) = some (items.flatMap Item.written) := by
  rw [vsprintf, formats, Option.map_some, List.flatMap_def]

theorem toInt_small {n : Int} (low : -2 ^ 31 ≤ n) (high : n < 2 ^ 31) : toInt n = n := by
  rw [toInt, BitVec.toInt_ofInt, Int.bmod_def]
  omega

def Conv.Ordinary (c : Conv) (left : List Nat) : Prop :=
  c.width < 2 ^ 31 ∧ c.value.text.length < 2 ^ 31 ∧ (c.width = 0 ∨ left.length ≤ c.digits.length) ∧
    ∀ ll v, c.value = .char ll v → v.toUInt8 ≠ 0

theorem Conv.Ordinary.padded {c : Conv} {left : List Nat} (ordinary : c.Ordinary left) : c.Padded left := by
  obtain ⟨width, text, more, ends⟩ := ordinary
  have digits : c.digits.length < 20 := by
    rw [digits, List.length_reverse]
    exact Nat.lt_succ_of_le ((Nat.digits_length_le_iff (by decide) c.width).mpr (by omega))
  have own : c.effective left = c.width := by
    rw [effective]
    split
    · rename_i none
      rw [none]
      rfl
    · rename_i some'
      rw [overlay, List.drop_eq_nil_of_le (more.resolve_left some'), List.append_nil, fieldWidth,
        Conv.digits, List.reverse_reverse,
        Nat.ofDigits_digits, toInt_small (by omega) (by omega)]
  refine ⟨digits, ?_, ends⟩
  rw [own, shortfall, toInt_small (by omega) (by omega)]
  omega

/-- The widths 12 and 5: the second is read as 52. -/
theorem width_keeps_digit :
    vsprintf ([.conv ⟨none, 12, .int .d 1⟩, .conv ⟨none, 5, .int .d 2⟩].flatMap Item.render)
    [.int 1, .int 2] ≠
      some ([.conv ⟨none, 12, .int .d 1⟩, .conv ⟨none, 5, .int .d 2⟩].flatMap Item.written) := by
  decide +kernel

end Embryo.Lib
