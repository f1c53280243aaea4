import Embryo.Machine.Bytes

namespace Embryo.Machine

abbrev Str := List UInt8

def isspace (c : UInt8) : Bool := (9 ≤ c && c ≤ 13) || c == 32

def strempty (s : Str) : Bool := s.all isspace

/-- Whether `strncmp` gives zero. The count goes down behind a pair of equal characters, so that
    from zero it starts over at the top of its word. -/
def strncmpZero : Str → Str → Nat → Bool
  | c :: d, c' :: s, n =>
    if c ≠ c' ∨ n = 1 then c = c' else strncmpZero d s (if n = 0 then 2^32 - 1 else n - 1)
  | [], [], _ => true
  | _, _, _ => false

theorem strncmpZero_begins {pfx : Str} (some' : pfx ≠ []) (s : Str) :
    strncmpZero s pfx pfx.length = pfx.isPrefixOf s := by
  induction pfx generalizing s with
  | nil => exact absurd rfl some'
  | cons c pfx ih =>
    cases s with
    | nil => rfl
    | cons d s =>
      rw [strncmpZero, List.isPrefixOf, List.length_cons]
      by_cases same : d = c
      · subst same
        rw [beq_self_eq_true, Bool.true_and]
        by_cases last : pfx = []
        · subst last
          simp
        · have more := List.length_pos_of_ne_nil last
          rw [if_neg (by simp; omega), if_neg (Nat.succ_ne_zero _), Nat.add_sub_cancel, ih last]
      · rw [if_pos (Or.inl same), beq_false_of_ne (Ne.symm same)]
        simp [same]

theorem strncmpZero_empty (s : Str) (n : Nat) : strncmpZero s [] n = s.isEmpty := by
  cases s <;> rfl

def CStr (mem : Memory) (p : Nat) : Str → Prop
  | [] => mem p = 0
  | c :: s => mem p = c ∧ c ≠ 0 ∧ CStr mem (p + 1) s

/-- The passes over the characters at `p` that go on while `keep` holds. -/
def skip (keep : UInt8 → Bool) (mem : Memory) : Nat → Nat → Option Nat
  | 0, _ => none
  | fuel + 1, p => if mem p ≠ 0 ∧ keep (mem p) then skip keep mem fuel (p + 1) else some p

def strdchr : Nat → Memory → Nat → Option Memory
  | 0, _, _ => none
  | fuel + 1, mem, t =>
    if mem t ≠ 0 then strdchr fuel (Function.update mem t (mem (t + 1))) (t + 1) else some mem

def fetch (mem : Memory) : Nat → Nat → Option Str
  | 0, _ => none
  | fuel + 1, p => if mem p = 0 then some [] else (fetch mem fuel (p + 1)).map (mem p :: ·)

section

variable {mem mem' : Memory} {p : Nat} {s : Str}

theorem CStr.congr (held : CStr mem p s) (same : ∀ x, p ≤ x → x ≤ p + s.length → mem' x = mem x) :
    CStr mem' p s := by
  induction s generalizing p with
  | nil => exact (same p (Nat.le_refl p) (Nat.le_refl p)).trans held
  | cons c s ih =>
    rw [List.length_cons] at same
    obtain ⟨first, nonzero, rest⟩ := held
    exact ⟨(same p (Nat.le_refl p) (by omega)).trans first, nonzero,
      ih rest fun x low high => same x (by omega) (by omega)⟩

theorem cstr_getD (clean : 0 ∉ s) (chars : ∀ i ≤ s.length, mem (p + i) = s.getD i 0) : CStr mem p s := by
  induction s generalizing p with
  | nil => exact chars 0 (Nat.le_refl 0)
  | cons c s ih =>
    rw [List.mem_cons, not_or] at clean
    refine ⟨chars 0 (Nat.zero_le _), Ne.symm clean.1, ih clean.2 fun i bound => ?_⟩
    rw [Nat.add_assoc, Nat.add_comm 1 i]
    exact chars (i + 1) (Nat.succ_le_succ bound)

theorem CStr.unique {s' : Str} (held : CStr mem p s) (held' : CStr mem p s') : s = s' := by
  induction s generalizing p s' with
  | nil =>
    cases s' with
    | nil => rfl
    | cons c s' => exact absurd (held'.1.symm.trans held) held'.2.1
  | cons c s ih =>
    cases s' with
    | nil => exact absurd (held.1.symm.trans held') held.2.1
    | cons c' s' => rw [held.1.symm.trans held'.1, ih held.2.2 held'.2.2]

theorem CStr.moved {q : Nat} (held : CStr mem p s)
    (same : ∀ i ≤ s.length, mem' (q + i) = mem (p + i)) : CStr mem' q s := by
  induction s generalizing p q with
  | nil => exact (same 0 (Nat.le_refl 0)).trans held
  | cons c s ih =>
    obtain ⟨first, nonzero, rest⟩ := held
    refine ⟨(same 0 (Nat.zero_le _)).trans first, nonzero, ih rest fun i bound => ?_⟩
    rw [Nat.add_assoc, Nat.add_assoc, Nat.add_comm 1 i]
    exact same (i + 1) (Nat.succ_le_succ bound)

theorem CStr.nonzero (held : CStr mem p s) : 0 ∉ s := by
  induction s generalizing p with
  | nil => exact List.not_mem_nil
  | cons c s ih =>
    intro member
    rcases List.mem_cons.mp member with same | member
    · exact held.2.1 same.symm
    · exact ih held.2.2 member

theorem cstr_append {a b : Str} :
    CStr mem p (a ++ b) ↔ bytes mem p a.length = a ∧ 0 ∉ a ∧ CStr mem (p + a.length) b := by
  induction a generalizing p with
  | nil => simp [bytes]
  | cons c a ih =>
    rw [List.cons_append, CStr, ih, List.length_cons, bytes, List.cons.injEq, List.mem_cons, not_or,
      Nat.add_assoc,
      Nat.add_comm 1]
    constructor
    · rintro ⟨first, nonzero, rest, clear, held⟩
      exact ⟨⟨first, rest⟩, ⟨Ne.symm nonzero, clear⟩, held⟩
    · rintro ⟨⟨first, rest⟩, ⟨nonzero, clear⟩, held⟩
      exact ⟨first, Ne.symm nonzero, rest, clear, held⟩

theorem CStr.ended (held : CStr mem p s) : mem (p + s.length) = 0 := by
  induction s generalizing p with
  | nil => exact held
  | cons c s ih =>
    have rest : mem (p + 1 + s.length) = 0 := ih held.2.2
    rw [List.length_cons, Nat.add_comm s.length 1, ← Nat.add_assoc, rest]

theorem CStr.fetch (held : CStr mem p s) (fuel : Nat) (enough : s.length < fuel) :
    fetch mem fuel p = some s := by
  obtain ⟨fuel, rfl⟩ : ∃ rest, fuel = rest + 1 := ⟨fuel - 1, by omega⟩
  induction s generalizing p fuel with
  | nil => exact if_pos held
  | cons c s ih =>
    obtain ⟨first, nonzero, rest⟩ := held
    rw [List.length_cons] at enough
    obtain ⟨fuel, rfl⟩ : ∃ rest, fuel = rest + 1 := ⟨fuel - 1, by omega⟩
    rw [Machine.fetch, first, if_neg nonzero, ih rest fuel (by omega)]
    rfl

theorem CStr.skip {keep : UInt8 → Bool} {a b : Str} (held : CStr mem p (a ++ b))
    (all : ∀ c ∈ a, keep c = true)
    (stop : ∀ c rest, b = c :: rest → keep c = false) (fuel : Nat) (enough : (a ++ b).length < fuel) :
    skip keep mem fuel p = some (p + a.length) := by
  obtain ⟨fuel, rfl⟩ : ∃ rest, fuel = rest + 1 := ⟨fuel - 1, by omega⟩
  induction a generalizing p fuel with
  | nil =>
    rw [Machine.skip, if_neg]
    · rfl
    · rintro ⟨nonzero, kept⟩
      cases b with
      | nil => exact nonzero held
      | cons c rest =>
        have first : mem p = c := held.1
        rw [first, stop c rest rfl] at kept
        cases kept
  | cons c a ih =>
    obtain ⟨first, nonzero, rest⟩ := held
    rw [List.cons_append, List.length_cons] at enough
    obtain ⟨fuel, rfl⟩ : ∃ rest, fuel = rest + 1 := ⟨fuel - 1, by omega⟩
    rw [Machine.skip, first, if_pos ⟨nonzero, all c List.mem_cons_self⟩,
      ih rest (fun d member => all d (List.mem_cons_of_mem c member)) fuel (by omega), List.length_cons]
    congr 1
    omega

theorem CStr.strdchr {c : UInt8} (held : CStr mem p (c :: s)) (fuel : Nat) (enough : s.length + 1 < fuel) :
    ∃ mem', strdchr fuel mem p = some mem' ∧ CStr mem' p s ∧ (∀ x < p, mem' x = mem x) ∧
      ∀ x, p + s.length < x → mem' x = mem x := by
  obtain ⟨fuel, rfl⟩ : ∃ rest, fuel = rest + 1 := ⟨fuel - 1, by omega⟩
  induction s generalizing mem p c fuel with
  | nil =>
    obtain ⟨first, nonzero, last⟩ := held
    have last : mem (p + 1) = 0 := last
    obtain ⟨fuel, rfl⟩ : ∃ rest, fuel = rest + 1 :=
      ⟨fuel - 1, by simp only [List.length_nil] at enough; omega⟩
    have ended : Function.update mem p (mem (p + 1)) (p + 1) = 0 := by
      rw [Function.update_of_ne (by omega), last]
    rw [Machine.strdchr, first, if_pos nonzero, Machine.strdchr, ended, if_neg (fun wrong => wrong rfl)]
    refine ⟨_, rfl, ?_, ?_, ?_⟩
    · show Function.update mem p (mem (p + 1)) p = 0
      rw [Function.update_self, last]
    · exact fun x below => Function.update_of_ne (by omega) _ _
    · intro x above
      rw [List.length_nil] at above
      exact Function.update_of_ne (by omega) _ _
  | cons d s ih =>
    obtain ⟨first, nonzero, rest⟩ := held
    rw [List.length_cons] at enough
    obtain ⟨fuel, rfl⟩ : ∃ rest, fuel = rest + 1 := ⟨fuel - 1, by omega⟩
    have moved : CStr (Function.update mem p (mem (p + 1))) (p + 1) (d :: s) :=
      rest.congr fun x low _ => Function.update_of_ne (by omega) _ _
    obtain ⟨mem', done, left, below, above⟩ := ih moved fuel (by omega)
    rw [Machine.strdchr, first, if_pos nonzero, done]
    refine ⟨mem', rfl, ⟨?_, rest.2.1, left⟩, ?_, ?_⟩
    · rw [below p (by omega), Function.update_self, rest.1]
    · intro x less
      rw [below x (by omega), Function.update_of_ne (by omega)]
    · intro x more
      rw [List.length_cons] at more
      rw [above x (by omega), Function.update_of_ne (by omega)]

end

end Embryo.Machine
