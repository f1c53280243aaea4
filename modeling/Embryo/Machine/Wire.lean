import Embryo.Machine.Endian

namespace Embryo.Machine

def wire16 (data : List UInt8) (k : Nat) : Nat := 256 * (data.getD k 0).toNat + (data.getD (k + 1) 0).toNat

theorem swap16_append (x : UInt16) :
    (swap16 x).toBitVec = x.toBitVec.extractLsb' 0 8 ++ x.toBitVec.extractLsb' 8 8 := by
  apply BitVec.eq_of_getLsbD_eq
  intro i less
  unfold swap16
  rw [BitVec.getLsbD_append]
  interval_cases i <;> simp

theorem swap16_toNat (x : UInt16) : (swap16 x).toNat = x.toNat % 256 * 256 + x.toNat / 256 := by
  have bound := x.toNat_lt
  rw [← UInt16.toNat_toBitVec, swap16_append]
  simp only [BitVec.toNat_append, BitVec.extractLsb'_toNat, UInt16.toNat_toBitVec, Nat.shiftRight_eq_div_pow]
  rw [← Nat.shiftLeft_add_eq_or_of_lt (by omega)]
  simp only [Nat.shiftLeft_eq, Nat.reducePow, Nat.div_one]
  omega

theorem ntohs_get16 (mem : Memory) (a : Nat) :
    (ntohs (get16 mem a)).toNat = 256 * (mem a).toNat + (mem (a + 1)).toNat := by
  have low := (mem a).toNat_lt
  have high := (mem (a + 1)).toNat_lt
  rw [ntohs, swap16_toNat, get16_toNat]
  omega

theorem bytes_getD {mem : Memory} {a n i : Nat} (inside : i < n) :
    (bytes mem a n).getD i 0 = mem (a + i) := by
  have bound : i < (bytes mem a n).length := by rw [bytes_length]; exact inside
  exact (List.getD_eq_getElem _ _ bound).trans (bytes_get mem a n i bound)

end Embryo.Machine
