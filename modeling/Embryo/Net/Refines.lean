import Embryo.Machine.Bits
import Embryo.Net.Ifaddr

namespace Embryo.Net

open Embryo.Machine Embryo.Radix

/-- The bits of a mask, where those that have been cut off are zero. Those of its length are the
    first eight. -/
def maskBit (m : Caddr) (j : Nat) : Bool := bitAt (maskByte m) j

def Refines (m n : Caddr) : Prop :=
  (∀ j ≥ 8, maskBit n j = true → maskBit m j = true) ∧ ∃ j ≥ 8, maskBit m j = true ∧ maskBit n j = false

variable {m n : Caddr}

theorem within_iff : (∀ i ≥ 1, maskByte n i &&& ~~~maskByte m i = 0) ↔ ∀ j ≥ 8, maskBit n j = true →
    maskBit m j = true := by
  constructor
  · exact fun within j past => byte_within_iff.mp (within (j / 8) (by omega)) j (by omega) (by omega)
  · exact fun within i low => byte_within_iff.mpr fun j first _ => within j (by omega)

theorem bytes_differ_iff : (∃ i ≥ 1, maskByte n i ≠ maskByte m i) ↔ ∃ j ≥ 8, maskBit n j ≠ maskBit m j := by
  constructor
  · rintro ⟨i, low, differ⟩
    obtain ⟨first, _, bit, _⟩ := firstBit_spec differ
    exact ⟨firstBit (maskByte n) (maskByte m) i, by omega, bit⟩
  · rintro ⟨j, past, differ⟩
    exact ⟨j / 8, by omega, fun same => differ (byte_eq_iff.mp same j (by omega) (by omega))⟩

theorem narrower_iff : Narrower 1 m n ↔ Refines m n := by
  rw [Narrower, Refines, within_iff, bytes_differ_iff]
  apply and_congr_right
  intro within
  constructor
  · rintro ⟨j, past, differ⟩
    cases n_bit : maskBit n j with
    | false =>
      rw [n_bit] at differ
      exact ⟨j, past, Bool.eq_true_of_not_eq_false differ.symm, n_bit⟩
    | true =>
      rw [n_bit, within j past n_bit] at differ
      exact absurd rfl differ
  · rintro ⟨j, past, one, zero⟩
    refine ⟨j, past, ?_⟩
    rw [one, zero]
    exact Bool.false_ne_true

/-- `rn_refines` is a strict order on the masks: more ones are better. -/
theorem rnRefines_strict :
    (∀ m n, Padded m n → (rnRefines m n = true ↔ Refines m n)) ∧
      (∀ m, rnRefines m m = false) ∧
      ∀ m n o, Padded m n → Padded n o → Padded m o → rnRefines m n = true → rnRefines n o = true →
        rnRefines m o = true := by
  refine ⟨fun m n padded => (rnRefines_iff padded).trans narrower_iff, rnRefines_irrefl, ?_⟩
  exact fun _ _ _ _ _ _ first second => rnRefines_trans first second

theorem rnRefines_classes :
    (rnRefines (sockaddrAt 0 [6, 0, 0, 0, 255, 255]) (sockaddrAt 10 [5, 0, 0, 0, 255]) = true ↔
      Refines (sockaddrAt 0 [6, 0, 0, 0, 255, 255]) (sockaddrAt 10 [5, 0, 0, 0, 255])) ∧
      rnRefines (sockaddrAt 0 [6, 0, 0, 0, 255, 255]) (sockaddrAt 20 [0]) = true := by
  refine ⟨rnRefines_strict.1 _ _ (fun _ => by decide), ?_⟩
  exact rnRefines_strict.2.2 _ (sockaddrAt 10 [5, 0, 0, 0, 255]) _ (fun _ => by decide)
    (fun _ => by decide) (fun _ => by decide) (by decide) (by decide)

end Embryo.Net
