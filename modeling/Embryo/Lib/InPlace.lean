import Embryo.Machine.CString

namespace Embryo.Lib.InPlace

open Embryo.Machine

structure Buffer where
  start : Nat
  size : Nat

def Buffer.Has (buf : Buffer) (p : Nat) : Prop := buf.start ≤ p ∧ p < buf.start + buf.size

instance (buf : Buffer) (p : Nat) : Decidable (buf.Has p) := inferInstanceAs (Decidable (_ ∧ _))

def Buffer.store (buf : Buffer) (mem : Memory) (p : Nat) (c : UInt8) : Option Memory :=
  if buf.Has p then some (Function.update mem p c) else none

section

variable (buf : Buffer)

def strdchr : Nat → Memory → Nat → Option Memory
  | 0, _, _ => none
  | fuel + 1, mem, t =>
    if mem t ≠ 0 then (buf.store mem t (mem (t + 1))).bind fun mem => strdchr fuel mem (t + 1) else some mem

def strlen (fuel : Nat) (mem : Memory) (p : Nat) : Option Nat := (skip (fun _ => true) mem fuel p).map (· - p)

def shift : Nat → Memory → Nat → Option Memory
  | 0, mem, _ => some mem
  | n + 1, mem, p => (buf.store mem (p + (n + 1)) (mem (p + n))).bind fun mem => shift n mem p

def strichr (fuel : Nat) (mem : Memory) (p : Nat) (c : UInt8) : Option Memory := do
  let n ← strlen fuel mem p
  let mem ← shift buf (n + 1) mem p
  buf.store mem p c

def stristr (fuel : Nat) : Str → Memory → Nat → Option Memory
  | [], mem, _ => some mem
  | c :: s, mem, p => (strichr buf fuel mem p c).bind fun mem => stristr fuel s mem (p + 1)

end

section

variable {buf : Buffer} {mem : Memory} {p fuel : Nat} {r : Str}

theorem strlen_eq (held : CStr mem p r) (enough : r.length < fuel) : strlen fuel mem p = some r.length := by
  have all : skip (fun _ => true) mem fuel p = some (p + r.length) :=
    CStr.skip (b := []) (by rwa [List.append_nil]) (fun _ _ => rfl) nofun fuel (by rwa [List.append_nil])
  rw [strlen, all, Option.map_some, Nat.add_sub_cancel_left]

theorem strdchr_eq (held : CStr mem p r) (low : buf.start ≤ p) (room : p + r.length ≤ buf.start + buf.size) :
    strdchr buf fuel mem p = Machine.strdchr fuel mem p := by
  induction fuel generalizing mem p r with
  | zero => rfl
  | succ fuel ih =>
    cases r with
    | nil =>
      have ended : mem p = 0 := held
      rw [strdchr, Machine.strdchr, if_neg (by simp [ended]), if_neg (by simp [ended])]
    | cons c r =>
      rw [List.length_cons] at room
      obtain ⟨first, nonzero, rest⟩ := held
      have moved : CStr (Function.update mem p (mem (p + 1))) (p + 1) r :=
        rest.congr fun x low _ => Function.update_of_ne (by omega) _ _
      rw [strdchr, Machine.strdchr, first, if_pos nonzero, if_pos nonzero, Buffer.store,
        if_pos ⟨low, by omega⟩, Option.bind_some,
        ih moved (by omega) (by omega)]

theorem strdchr_times (buf : Buffer) (fuel : Nat) {w : Str} (held : CStr mem p (w ++ r)) (low : buf.start ≤ p)
    (room : p + (w ++ r).length < buf.start + buf.size) (enough : (w ++ r).length < fuel) :
    ∃ mem', (fun mem => mem.bind fun mem => strdchr buf fuel mem p)^[w.length]
    (some mem) = some mem' ∧ CStr mem' p r ∧
      (∀ x < p, mem' x = mem x) ∧ (∀ x, p + r.length ≤ x → x ≤ p + (w ++ r).length → mem' x = 0) ∧
      ∀ x, p + (w ++ r).length < x → mem' x = mem x := by
  induction w generalizing mem with
  | nil =>
    refine ⟨mem, rfl, held, fun _ _ => rfl, fun x high below => ?_, fun _ _ => rfl⟩
    have last : x = p + r.length := Nat.le_antisymm below high
    rw [last]
    exact held.ended
  | cons c w ih =>
    rw [List.cons_append] at held
    rw [List.cons_append, List.length_cons] at room enough
    obtain ⟨mem₁, done, left, below, above⟩ := held.strdchr fuel (by omega)
    have first : strdchr buf fuel mem p = some mem₁ := by
      rw [strdchr_eq held low (by rw [List.length_cons]; omega), done]
    obtain ⟨mem₂, again, after, below₂, zeros, above₂⟩ := ih left (by omega) (by omega)
    have end₁ : mem₁ (p + (w ++ r).length + 1) = 0 := by
      rw [above _ (by omega)]
      exact held.ended
    refine ⟨mem₂, ?_, after, fun x less => (below₂ x less).trans (below x less), ?_, ?_⟩
    · rw [List.length_cons, Function.iterate_succ_apply, Option.bind_some, first, again]
    · intro x high less
      rw [List.cons_append, List.length_cons] at less
      by_cases last : x = p + (w ++ r).length + 1
      · rw [last, above₂ _ (by omega), end₁]
      · exact zeros x high (by omega)
    · intro x more
      rw [List.cons_append, List.length_cons] at more
      rw [above₂ x (by omega), above x (by omega)]

theorem shift_eq (n : Nat) (mem : Memory) (low : buf.start ≤ p) (room : p + n < buf.start + buf.size) :
    shift buf n mem p = some fun x => if p < x ∧ x ≤ p + n then mem (x - 1) else mem x := by
  induction n generalizing mem with
  | zero =>
    rw [shift, Option.some.injEq]
    funext x
    rw [if_neg (by omega)]
  | succ n ih =>
    rw [shift, Buffer.store, if_pos ⟨by omega, by omega⟩, Option.bind_some, ih _ (by omega),
      Option.some.injEq]
    funext x
    by_cases inside : p < x ∧ x ≤ p + n
    · rw [if_pos inside, if_pos (by omega), Function.update_of_ne (by omega)]
    · rw [if_neg inside]
      by_cases last : x = p + (n + 1)
      · rw [if_pos (by omega), last, Function.update_self]
        rfl
      · rw [if_neg (by omega), Function.update_of_ne last]

theorem strichr_full (c : UInt8) (held : CStr mem p r) (enough : r.length < fuel)
    (full : buf.start + buf.size ≤ p + r.length + 1) : strichr buf fuel mem p c = none := by
  have outside : ¬buf.Has (p + (r.length + 1)) := fun has => absurd has.2 (by omega)
  rw [strichr, strlen_eq held enough]
  simp only [Option.bind_eq_bind, Option.bind_some, shift, Buffer.store, if_neg outside, Option.bind_none]

theorem strichr_eq {c : UInt8} (nonzero : c ≠ 0) (held : CStr mem p r) (fuel : Nat)
    (enough : r.length < fuel) (low : buf.start ≤ p)
    (room : p + r.length + 1 < buf.start + buf.size) :
    ∃ mem', strichr buf fuel mem p c = some mem' ∧ CStr mem' p (c :: r) ∧ (∀ x < p, mem' x = mem x) ∧
      ∀ x, p + r.length + 1 < x → mem' x = mem x := by
  rw [strichr, strlen_eq held enough]
  simp only [Option.bind_eq_bind, Option.bind_some]
  rw [shift_eq (r.length + 1) mem low (by omega), Option.bind_some, Buffer.store, if_pos ⟨low, by omega⟩]
  refine ⟨_, rfl, ⟨Function.update_self _ _ _, nonzero, ?_⟩, ?_, ?_⟩
  · refine held.moved fun i bound => ?_
    rw [Function.update_of_ne (by omega), if_pos (by omega), Nat.add_right_comm, Nat.add_sub_cancel]
  · intro x less
    rw [Function.update_of_ne (by omega), if_neg (by omega)]
  · intro x more
    rw [Function.update_of_ne (by omega), if_neg (by omega)]

theorem stristr_eq (buf : Buffer) (fuel : Nat) {s : Str} (nonzero : 0 ∉ s) (held : CStr mem p r)
    (enough : s.length + r.length < fuel) (low : buf.start ≤ p)
    (room : p + s.length + r.length < buf.start + buf.size) :
    ∃ mem', stristr buf fuel s mem p = some mem' ∧ CStr mem' p (s ++ r) ∧ (∀ x < p, mem' x = mem x) ∧
      ∀ x, p + s.length + r.length < x → mem' x = mem x := by
  induction s generalizing mem p with
  | nil => exact ⟨mem, rfl, held, fun _ _ => rfl, fun _ _ => rfl⟩
  | cons c s ih =>
    rw [List.length_cons] at enough room
    rw [List.mem_cons, not_or] at nonzero
    obtain ⟨mem₁, put, ⟨here, -, there⟩, below, above⟩ :=
      strichr_eq (Ne.symm nonzero.1) held fuel (by omega) low (by omega)
    have there : CStr mem₁ (p + 1) r := there
    obtain ⟨mem₂, done, rest, below₂, above₂⟩ := ih nonzero.2 there (by omega) (by omega) (by omega)
    refine ⟨mem₂, ?_, ⟨?_, Ne.symm nonzero.1, rest⟩, ?_, ?_⟩
    · rw [stristr, put, Option.bind_some, done]
    · rw [below₂ p (by omega), here]
    · intro x less
      rw [below₂ x (by omega), below x less]
    · intro x more
      rw [List.length_cons] at more
      rw [above₂ x (by omega), above x (by omega)]

theorem stristr_full (buf : Buffer) (fuel : Nat) {s : Str} (nonzero : 0 ∉ s) (held : CStr mem p r)
    (enough : s.length + r.length < fuel) (low : buf.start ≤ p)
    (starts : p + r.length < buf.start + buf.size) (full : buf.start + buf.size ≤ p + s.length + r.length) :
    stristr buf fuel s mem p = none := by
  induction s generalizing mem p with
  | nil => exact absurd full (by rw [List.length_nil]; omega)
  | cons c s ih =>
    rw [List.length_cons] at enough full
    rw [List.mem_cons, not_or] at nonzero
    by_cases fits : p + r.length + 1 < buf.start + buf.size
    · obtain ⟨mem₁, put, ⟨-, -, there⟩, -, -⟩ := strichr_eq (Ne.symm nonzero.1) held fuel (by omega) low fits
      have there : CStr mem₁ (p + 1) r := there
      rw [stristr, put, Option.bind_some, ih nonzero.2 there (by omega) (by omega) (by omega) (by omega)]
    · rw [stristr, strichr_full c held (by omega) (by omega), Option.bind_none]

end

end Embryo.Lib.InPlace
