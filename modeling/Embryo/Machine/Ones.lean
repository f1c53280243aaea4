import Mathlib

namespace Embryo.Machine

/-- Two numbers are the same in 16-bit ones' complement: equal modulo `2^16 - 1`, and both zero
    or both not. -/
def Ones (x y : Nat) : Prop := x % 0xffff = y % 0xffff ∧ (x = 0 ↔ y = 0)

theorem Ones.refl (x : Nat) : Ones x x := ⟨rfl, Iff.rfl⟩

theorem Ones.symm {x y : Nat} (same : Ones x y) : Ones y x := ⟨same.1.symm, same.2.symm⟩

theorem Ones.trans {x y z : Nat} (first : Ones x y) (second : Ones y z) : Ones x z :=
  ⟨first.1.trans second.1, first.2.trans second.2⟩

theorem Ones.add {x x' y y' : Nat} (first : Ones x x') (second : Ones y y') :
    Ones (x + y) (x' + y') := by
  simp only [Ones] at *
  omega

theorem Ones.shift {x y : Nat} (same : Ones x y) : Ones (256 * x) (256 * y) := by
  simp only [Ones] at *
  omega

theorem ones_double_shift (x : Nat) : Ones (256 * (256 * x)) x := by
  simp only [Ones]
  omega

theorem Ones.eq {x y : Nat} (same : Ones x y) (first : x ≤ 0xffff) (second : y ≤ 0xffff) : x = y := by
  simp only [Ones] at *
  omega

def onesAdd (x y : Nat) : Nat := if x + y > 0xffff then x + y - 0xffff else x + y

theorem onesAdd_le {x y : Nat} (first : x ≤ 0xffff) (second : y ≤ 0xffff) : onesAdd x y ≤ 0xffff := by
  unfold onesAdd
  split <;> omega

theorem ones_onesAdd (x y : Nat) : Ones (onesAdd x y) (x + y) := by
  simp only [Ones, onesAdd]
  split <;> omega

def number : List UInt8 → Nat
  | [] => 0
  | b :: bs => b.toNat + 256 * number bs

theorem ones_number_append {xs : List UInt8} (even : xs.length % 2 = 0) (ys : List UInt8) :
    Ones (number (xs ++ ys)) (number xs + number ys) := by
  induction xs using List.twoStepInduction with
  | nil => simpa [number] using Ones.refl _
  | singleton x => simp at even
  | cons_cons x y xs ih _ =>
    have shorter : xs.length % 2 = 0 := by
      simp only [List.length_cons] at even
      omega
    have step := ((ih shorter).shift.shift)
    simp only [List.cons_append, number]
    simp only [Ones] at *
    omega

theorem ones_number_append_odd {xs : List UInt8} (odd : xs.length % 2 = 1) (ys : List UInt8) :
    Ones (number (xs ++ ys)) (number xs + 256 * number ys) := by
  cases xs with
  | nil => cases odd
  | cons x xs =>
    have even : xs.length % 2 = 0 := by
      rw [List.length_cons] at odd
      omega
    have step := (ones_number_append even ys).shift
    simp only [List.cons_append, number]
    simp only [Ones] at *
    omega

def words : List UInt8 → List Nat
  | [] => []
  | [b] => [b.toNat]
  | b :: c :: bs => (b.toNat + 256 * c.toNat) :: words bs

theorem words_le (bs : List UInt8) : ∀ w ∈ words bs, w ≤ 0xffff := by
  induction bs using List.twoStepInduction with
  | nil => simp [words]
  | singleton b =>
    have := b.toNat_lt
    simp only [words, List.mem_singleton, forall_eq]
    omega
  | cons_cons b c bs ih _ =>
    have := b.toNat_lt
    have := c.toNat_lt
    intro w member
    rcases List.mem_cons.mp member with rfl | member
    · omega
    · exact ih w member

def inetChecksum (bs : List UInt8) : Nat := 0xffff - (words bs).foldl onesAdd 0

theorem onesSum_le {ws : List Nat} (bound : ∀ w ∈ ws, w ≤ 0xffff) {x : Nat} (start : x ≤ 0xffff) :
    ws.foldl onesAdd x ≤ 0xffff := by
  induction ws generalizing x with
  | nil => exact start
  | cons w ws ih =>
    apply ih (fun v member => bound v (List.mem_cons_of_mem _ member))
    exact onesAdd_le start (bound w List.mem_cons_self)

theorem ones_onesSum (ws : List Nat) (x : Nat) : Ones (ws.foldl onesAdd x) (x + ws.sum) := by
  induction ws generalizing x with
  | nil => exact Ones.refl _
  | cons w ws ih =>
    rw [List.foldl_cons, List.sum_cons, ← Nat.add_assoc]
    exact (ih _).trans ((ones_onesAdd x w).add (Ones.refl _))

theorem ones_words_sum (bs : List UInt8) : Ones (words bs).sum (number bs) := by
  induction bs using List.twoStepInduction with
  | nil => exact Ones.refl _
  | singleton b => simpa [words, number] using Ones.refl _
  | cons_cons b c bs ih _ =>
    simp only [words, List.sum_cons, number]
    simp only [Ones] at *
    omega

theorem ones_checksum (bs : List UInt8) : Ones ((words bs).foldl onesAdd 0) (number bs) := by
  have sum := ones_onesSum (words bs) 0
  rw [Nat.zero_add] at sum
  exact sum.trans (ones_words_sum bs)

theorem inetChecksum_eq {bs : List UInt8} {x : Nat} (same : Ones x (number bs)) (bound : x ≤ 0xffff) :
    inetChecksum bs = 0xffff - x := by
  have equal := (same.trans (ones_checksum bs).symm).eq bound (onesSum_le (words_le bs) (by decide))
  rw [inetChecksum, equal]

end Embryo.Machine
