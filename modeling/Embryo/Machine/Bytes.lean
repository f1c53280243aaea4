import Mathlib

namespace Embryo.Machine

abbrev Memory := Nat → UInt8

def bytes (mem : Memory) : Nat → Nat → List UInt8
  | _, 0 => []
  | a, n + 1 => mem a :: bytes mem (a + 1) n

@[simp] theorem bytes_length (mem : Memory) (a n : Nat) : (bytes mem a n).length = n := by
  induction n generalizing a with
  | zero => rfl
  | succ n ih => simp only [bytes, List.length_cons, ih]

theorem bytes_add (mem : Memory) (a n m : Nat) :
    bytes mem a (n + m) = bytes mem a n ++ bytes mem (a + n) m := by
  induction n generalizing a with
  | zero => simp only [bytes, Nat.zero_add, Nat.add_zero, List.nil_append]
  | succ n ih =>
    rw [Nat.add_right_comm, bytes, ih, bytes, List.cons_append, Nat.add_assoc a 1 n, Nat.add_comm 1 n]

theorem bytes_congr {mem mem' : Memory} {a n : Nat}
    (same : ∀ x, a ≤ x → x < a + n → mem' x = mem x) : bytes mem' a n = bytes mem a n := by
  induction n generalizing a with
  | zero => rfl
  | succ n ih =>
    rw [bytes, bytes, same a (Nat.le_refl a) (by omega), ih]
    intro x low high
    exact same x (by omega) (by omega)

theorem bytes_take (mem : Memory) {a n k : Nat} (bound : k ≤ n) :
    (bytes mem a n).take k = bytes mem a k := by
  obtain ⟨m, rfl⟩ := Nat.exists_eq_add_of_le bound
  rw [bytes_add, List.take_left' (bytes_length mem a k)]

theorem bytes_drop (mem : Memory) {a n k : Nat} (bound : k ≤ n) :
    (bytes mem a n).drop k = bytes mem (a + k) (n - k) := by
  obtain ⟨m, rfl⟩ := Nat.exists_eq_add_of_le bound
  rw [bytes_add, List.drop_left' (bytes_length mem a k), Nat.add_sub_cancel_left]

/-- The two loops of `bcopy`: from the last byte down, and from the first byte up. -/
def bcopyDown (s d : Nat) : Nat → Memory → Memory
  | 0, mem => mem
  | n + 1, mem => bcopyDown s d n (Function.update mem (d + n) (mem (s + n)))

def bcopyUp : Nat → Nat → Nat → Memory → Memory
  | _, _, 0, mem => mem
  | s, d, n + 1, mem => bcopyUp (s + 1) (d + 1) n (Function.update mem d (mem s))

def bcopy (mem : Memory) (s d n : Nat) : Memory :=
  if s < d then bcopyDown s d n mem else bcopyUp s d n mem

theorem bcopyDown_apply {s d : Nat} (below : s < d) (n : Nat) (mem : Memory) (x : Nat) :
    bcopyDown s d n mem x = if d ≤ x ∧ x < d + n then mem (s + (x - d)) else mem x := by
  induction n generalizing mem with
  | zero =>
    have outside : ¬ (d ≤ x ∧ x < d + 0) := by omega
    rw [if_neg outside, bcopyDown]
  | succ n ih =>
    rw [bcopyDown, ih]
    by_cases last : x = d + n
    · have outside : ¬ (d ≤ x ∧ x < d + n) := by omega
      rw [if_neg outside, if_pos (by omega), last, Function.update_self, Nat.add_sub_cancel_left]
    · by_cases inside : d ≤ x ∧ x < d + n
      · rw [if_pos inside, if_pos (by omega), Function.update_of_ne (by omega)]
      · rw [if_neg inside, if_neg (by omega), Function.update_of_ne last]

theorem bcopyUp_apply {s d : Nat} (above : d ≤ s) (n : Nat) (mem : Memory) (x : Nat) :
    bcopyUp s d n mem x = if d ≤ x ∧ x < d + n then mem (s + (x - d)) else mem x := by
  induction n generalizing s d mem with
  | zero =>
    have outside : ¬ (d ≤ x ∧ x < d + 0) := by omega
    rw [if_neg outside, bcopyUp]
  | succ n ih =>
    rw [bcopyUp, ih (by omega)]
    by_cases first : x = d
    · have outside : ¬ (d + 1 ≤ x ∧ x < d + 1 + n) := by omega
      rw [if_neg outside, if_pos (by omega), first, Function.update_self, Nat.sub_self, Nat.add_zero]
    · by_cases inside : d + 1 ≤ x ∧ x < d + 1 + n
      · rw [if_pos inside, if_pos (by omega), Function.update_of_ne (by omega)]
        congr 1
        omega
      · rw [if_neg inside, if_neg (by omega), Function.update_of_ne first]

theorem bcopy_apply (mem : Memory) (s d n x : Nat) :
    bcopy mem s d n x = if d ≤ x ∧ x < d + n then mem (s + (x - d)) else mem x := by
  unfold bcopy
  split
  · exact bcopyDown_apply (by assumption) n mem x
  · exact bcopyUp_apply (by omega) n mem x

theorem bcopy_outside {mem : Memory} {s d n x : Nat} (outside : ¬ (d ≤ x ∧ x < d + n)) :
    bcopy mem s d n x = mem x := by
  rw [bcopy_apply, if_neg outside]

theorem bytes_bcopy (mem : Memory) (s d n : Nat) : bytes (bcopy mem s d n) d n = bytes mem s n := by
  have moved : ∀ k ≤ n, bytes (bcopy mem s d n) (d + (n - k)) k = bytes mem (s + (n - k)) k := by
    intro k
    induction k with
    | zero => intro _; rfl
    | succ k ih =>
      intro bound
      have next : n - (k + 1) + 1 = n - k := by omega
      rw [bytes, bytes, bcopy_apply, if_pos (by omega), Nat.add_assoc d, Nat.add_assoc s, next,
        ih (by omega), Nat.add_sub_cancel_left]
  simpa using moved n (Nat.le_refl n)

def load32 (mem : Memory) (a : Nat) : Nat :=
  (mem a).toNat + 256 * ((mem (a + 1)).toNat + 256 * ((mem (a + 2)).toNat + 256 * (mem (a + 3)).toNat))

def store32 (mem : Memory) (a v : Nat) : Memory := fun x =>
  if a ≤ x ∧ x < a + 4 then UInt8.ofNat (v / 256^(x - a)) else mem x

theorem store32_outside {mem : Memory} {a v x : Nat} (outside : ¬ (a ≤ x ∧ x < a + 4)) :
    store32 mem a v x = mem x := if_neg outside

theorem load32_store32 {v : Nat} (bound : v < 2^32) (mem : Memory) (a : Nat) :
    load32 (store32 mem a v) a = v := by
  have byte : ∀ i < 4, (store32 mem a v (a + i)).toNat = v / 256^i % 256 := by
    intro i less
    rw [store32, if_pos (by omega), Nat.add_sub_cancel_left]
    simp
  have first := byte 0 (by omega)
  rw [Nat.add_zero] at first
  rw [load32, first, byte 1 (by omega), byte 2 (by omega), byte 3 (by omega)]
  norm_num
  omega

theorem load32_congr {mem mem' : Memory} {a : Nat} (same : ∀ x, a ≤ x → x < a + 4 → mem' x = mem x) :
    load32 mem' a = load32 mem a := by
  simp only [load32]
  rw [same a (by omega) (by omega), same (a + 1) (by omega) (by omega),
    same (a + 2) (by omega) (by omega), same (a + 3) (by omega) (by omega)]

def write (mem : Memory) (a : Nat) (xs : List UInt8) : Memory := fun x =>
  if a ≤ x ∧ x < a + xs.length then xs.getD (x - a) 0 else mem x

theorem write_outside {mem : Memory} {a x : Nat} {xs : List UInt8} (outside : ¬ (a ≤ x ∧ x < a + xs.length)) :
    write mem a xs x = mem x := if_neg outside

theorem write_inside {mem : Memory} {a i : Nat} {xs : List UInt8} (inside : i < xs.length) :
    write mem a xs (a + i) = xs.get ⟨i, inside⟩ := by
  rw [write, if_pos (by omega), Nat.add_sub_cancel_left, List.getD_eq_getElem xs 0 inside]
  rfl

def SameBut (a n : Nat) (mem mem' : Memory) : Prop := ∀ x, ¬ (a ≤ x ∧ x < a + n) → mem' x = mem x

theorem SameBut.refl (a n : Nat) (mem : Memory) : SameBut a n mem mem := fun _ _ => rfl

theorem SameBut.trans {a n : Nat} {mem mem' mem'' : Memory} (first : SameBut a n mem mem')
    (second : SameBut a n mem' mem'') : SameBut a n mem mem'' :=
  fun x outside => (second x outside).trans (first x outside)

theorem SameBut.write (mem : Memory) {a n b : Nat} {xs : List UInt8} (low : a ≤ b)
    (high : b + xs.length ≤ a + n) : SameBut a n mem (Machine.write mem b xs) := by
  intro x outside
  apply write_outside
  omega

theorem bytes_get (mem : Memory) (a n i : Nat) (inside : i < (bytes mem a n).length) :
    (bytes mem a n).get ⟨i, inside⟩ = mem (a + i) := by
  induction n generalizing a i with
  | zero => simp [bytes] at inside
  | succ n ih =>
    cases i with
    | zero => rfl
    | succ i =>
      have next : a + 1 + i = a + (i + 1) := by omega
      have shorter : i < (bytes mem (a + 1) n).length := Nat.lt_of_succ_lt_succ inside
      show (bytes mem (a + 1) n).get ⟨i, shorter⟩ = _
      rw [ih, next]

theorem bytes_write (mem : Memory) (a : Nat) (xs : List UInt8) : bytes (write mem a xs) a xs.length = xs := by
  apply List.ext_get (bytes_length _ _ _)
  intro i first second
  rw [bytes_get, write_inside second]

end Embryo.Machine
