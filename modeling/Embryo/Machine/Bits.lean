import Mathlib

namespace Embryo.Machine

def bitAt (v : Nat → UInt8) (b : Nat) : Bool := v (b / 8) &&& (0x80 >>> UInt8.ofNat (b % 8)) ≠ 0

variable {v w : Nat → UInt8} {i : Nat}

theorem mask_testBit (k : Nat) (low : k < 8) (a : UInt8) :
    (decide (a &&& (0x80 >>> UInt8.ofNat k) ≠ 0)) = a.toNat.testBit (7 - k) := by
  have power : ∀ k < 8, (0x80 >>> UInt8.ofNat k : UInt8).toNat = 2 ^ (7 - k) := by decide
  have value : (a &&& (0x80 >>> UInt8.ofNat k)).toNat = (a.toNat.testBit (7 - k)).toNat * 2 ^ (7 - k) := by
    rw [UInt8.toNat_and, power k low, Nat.and_two_pow]
  cases bit : a.toNat.testBit (7 - k) with
  | false =>
    rw [bit, Bool.toNat_false, Nat.zero_mul] at value
    exact decide_eq_false (not_not.mpr (UInt8.toNat_inj.mp value))
  | true =>
    rw [bit, Bool.toNat_true, Nat.one_mul] at value
    refine decide_eq_true fun zero => ?_
    rw [zero] at value
    exact absurd value.symm (Nat.pos_iff_ne_zero.mp (Nat.two_pow_pos _))

theorem bitAt_byte (v : Nat → UInt8) (i : Nat) {k : Nat} (low : k < 8) :
    bitAt v (8 * i + k) = (v i).toNat.testBit (7 - k) := by
  have place : (8 * i + k) / 8 = i := by omega
  have bit : (8 * i + k) % 8 = k := by omega
  rw [bitAt, place, bit, mask_testBit k low]

theorem bit_split {p : Nat → Prop} (i : Nat) :
    (∀ b, 8 * i ≤ b → b < 8 * i + 8 → p b) ↔ ∀ k < 8, p (8 * i + k) := by
  constructor
  · exact fun all k low => all (8 * i + k) (by omega) (by omega)
  · intro all b low high
    obtain ⟨k, rfl⟩ := Nat.exists_eq_add_of_le low
    exact all k (by omega)

theorem testBit_ext {a b : UInt8}
    (same : ∀ k < 8, a.toNat.testBit (7 - k) = b.toNat.testBit (7 - k)) : a = b := by
  apply UInt8.toNat_inj.mp
  apply Nat.eq_of_testBit_eq
  intro j
  by_cases small : j < 8
  · have bit := same (7 - j) (by omega)
    rwa [show 7 - (7 - j) = j by omega] at bit
  · have room : 2 ^ 8 ≤ 2 ^ j := Nat.pow_le_pow_right (by decide) (by omega)
    rw [Nat.testBit_lt_two_pow (Nat.lt_of_lt_of_le a.toNat_lt room),
      Nat.testBit_lt_two_pow (Nat.lt_of_lt_of_le b.toNat_lt room)]

theorem byte_eq_iff : v i = w i ↔ ∀ b, 8 * i ≤ b → b < 8 * i + 8 → bitAt v b = bitAt w b := by
  rw [bit_split]
  constructor
  · intro same k low
    rw [bitAt_byte v i low, bitAt_byte w i low, same]
  · intro same
    apply testBit_ext
    intro k low
    rw [← bitAt_byte v i low, ← bitAt_byte w i low, same k low]

theorem byte_zero_iff : v i = 0 ↔ ∀ b, 8 * i ≤ b → b < 8 * i + 8 → bitAt v b = false := by
  have zeros : ∀ b, bitAt (fun _ => 0) b = false := by
    intro b
    simp [bitAt]
  have same := @byte_eq_iff v (fun _ => 0) i
  simp only [zeros] at same
  exact same

theorem byte_ones_iff : v i = 0xff ↔ ∀ b, 8 * i ≤ b → b < 8 * i + 8 → bitAt v b = true := by
  have one : ∀ k < 8, (0xff : UInt8).toNat.testBit (7 - k) = true := by decide
  rw [bit_split]
  constructor
  · intro ones k low
    rw [bitAt_byte v i low, ones, one k low]
  · intro ones
    apply testBit_ext
    intro k low
    rw [← bitAt_byte v i low, ones k low, one k low]

theorem byte_within_iff : v i &&& ~~~w i = 0 ↔ ∀ b, 8 * i ≤ b → b < 8 * i + 8 → bitAt v b = true →
    bitAt w b = true := by
  rw [bit_split, ← UInt8.toBitVec_inj]
  constructor
  · intro none k low
    rw [bitAt_byte v i low, bitAt_byte w i low]
    intro one
    have bit := congrArg (·.getLsbD (7 - k)) none
    have one' : (v i).toBitVec.getLsbD (7 - k) = true := one
    have small : 7 - k < 8 := by omega
    have other : (w i).toBitVec.getLsbD (7 - k) = true := by simpa [one', small] using bit
    exact other
  · intro within
    apply BitVec.eq_of_getLsbD_eq
    intro j small
    have bit := within (7 - j) (by omega)
    rw [bitAt_byte v i (by omega), bitAt_byte w i (by omega), show 7 - (7 - j) = j by omega] at bit
    simp [small]
    exact bit

theorem bytes_eq_iff {s n : Nat} :
    (∀ i, s ≤ i → i < n → v i = w i) ↔ ∀ b, 8 * s ≤ b → b < 8 * n → bitAt v b = bitAt w b := by
  constructor
  · exact fun same b low high => byte_eq_iff.mp (same (b / 8) (by omega) (by omega)) b (by omega) (by omega)
  · exact fun same i low high => byte_eq_iff.mpr fun b first last => same b (by omega) (by omega)

def firstBit (v w : Nat → UInt8) (i : Nat) : Nat := 8 * i + 7 - ((v i ^^^ w i).toNat).log2

theorem firstBit_spec (differ : v i ≠ w i) :
    8 * i ≤ firstBit v w i ∧ firstBit v w i < 8 * i + 8 ∧
      bitAt v (firstBit v w i) ≠ bitAt w (firstBit v w i) ∧
      ∀ b, 8 * i ≤ b → b < firstBit v w i → bitAt v b = bitAt w b := by
  have nonzero : (v i ^^^ w i).toNat ≠ 0 := by
    intro zero
    apply differ
    rw [← UInt8.xor_eq_zero_iff]
    exact UInt8.toNat_inj.mp zero
  have small : ((v i ^^^ w i).toNat).log2 < 8 := (Nat.log2_lt nonzero).mpr (v i ^^^ w i).toNat_lt
  have parts : ∀ k, (v i ^^^ w i).toNat.testBit k = ((v i).toNat.testBit k ^^ (w i).toNat.testBit k) := by
    intro k
    rw [UInt8.toNat_xor, Nat.testBit_xor]
  have place : firstBit v w i = 8 * i + (7 - ((v i ^^^ w i).toNat).log2) := by
    rw [firstBit]
    omega
  rw [place]
  refine ⟨by omega, by omega, ?_, fun b low high => ?_⟩
  · have one := Nat.testBit_log2 nonzero
    rw [parts] at one
    rw [bitAt_byte v i (by omega), bitAt_byte w i (by omega),
      show 7 - (7 - ((v i ^^^ w i).toNat).log2) = ((v i ^^^ w i).toNat).log2 by omega]
    simpa using one
  · obtain ⟨k, rfl⟩ := Nat.exists_eq_add_of_le low
    have above : ((v i ^^^ w i).toNat) < 2 ^ (7 - k) := (Nat.log2_lt nonzero).mp (by omega)
    have same := Nat.testBit_lt_two_pow above
    rw [parts] at same
    rw [bitAt_byte v i (by omega), bitAt_byte w i (by omega)]
    simpa using same

end Embryo.Machine
