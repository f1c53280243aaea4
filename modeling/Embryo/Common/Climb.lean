import Mathlib

namespace Embryo.Common

open Relation (ReflTransGen)

/-- A pass of `while(sum >> 16) sum += (sum >> 16)`, before its result is cut to 32 bits. -/
def Grows (v w : Nat) : Prop := 2^16 ≤ v ∧ v < 2^32 ∧ w = v + v / 2^16

theorem grows_together {v k : Nat} (low : 2^16 ≤ v) (high : v < 2^32)
    (steps : ∀ j < k, v % 2^16 + j * (v / 2^16) < 2^16) :
    ReflTransGen Grows v (v + k * (v / 2^16)) := by
  induction k with
  | zero => simpa using .refl
  | succ k ih =>
    refine (ih fun j less => steps j (by omega)).tail ?_
    have last := steps k (by omega)
    rw [Nat.succ_mul]
    generalize k * (v / 2^16) = climbed at last ⊢
    have half : (v + climbed) / 2^16 = v / 2^16 := by omega
    exact ⟨by omega, by omega, by rw [half, Nat.add_assoc]⟩

def lift (v : Nat) : Nat :=
  -- the operations by their names, which the kernel evaluates at once
  let half := v.div 65536
  v.add ((((Nat.add 65535 half).sub (v.mod 65536)).div half |>.mul half).mul (Nat.sub 1 (v.div 4294967296)))

theorem lift_eq (v : Nat) :
    lift v = v + (65535 + v / 65536 - v % 65536) / (v / 65536) * (v / 65536) * (1 - v / 4294967296) := rfl

theorem lift_grows {v : Nat} (low : 2^16 ≤ v) : ReflTransGen Grows v (lift v) ∧ 2^16 ≤ lift v := by
  rw [lift_eq]
  by_cases high : v < 2^32
  · have inside : 1 - v / 4294967296 = 1 := by omega
    rw [inside, Nat.mul_one]
    refine ⟨grows_together low high fun j less => ?_, by omega⟩
    have positive : 0 < v / 65536 := by omega
    have far : (j + 1) * (v / 65536) ≤ 65535 + v / 65536 - v % 65536 :=
      (Nat.le_div_iff_mul_le positive).mp less
    rw [Nat.succ_mul] at far
    simp only [Nat.reducePow]
    omega
  · have outside : 1 - v / 4294967296 = 0 := by omega
    rw [outside, Nat.mul_zero, Nat.add_zero]
    exact ⟨.refl, low⟩

def lifts : Nat → Nat → Nat
  | 0, v => lift v
  | d + 1, v => lifts d (lifts d v)

theorem lifts_grows (d : Nat) {v : Nat} (low : 2^16 ≤ v) :
    ReflTransGen Grows v (lifts d v) ∧ 2^16 ≤ lifts d v := by
  induction d generalizing v with
  | zero => exact lift_grows low
  | succ d ih =>
    obtain ⟨first, low'⟩ := ih low
    obtain ⟨second, high⟩ := ih low'
    exact ⟨first.trans second, high⟩

theorem lifts_out : lifts 16 (2^17) = 2^32 + 0x9cf9 := by decide +kernel

theorem carry_grows {v : Nat} (low : 2^16 ≤ v) (high : v < 2^17) : ReflTransGen Grows v (2^32 + 0x9cf9) := by
  have half : v / 65536 = 1 := by omega
  have first := (lift_grows low).1
  have reached : lift v = 2^17 := by
    have inside : 1 - v / 4294967296 = 1 := by omega
    rw [lift_eq, half, inside, Nat.div_one, Nat.mul_one, Nat.mul_one]
    omega
  rw [reached] at first
  exact lifts_out ▸ first.trans (lifts_grows 16 (by decide)).1

end Embryo.Common
