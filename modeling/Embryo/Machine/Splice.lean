import Embryo.Machine.Bytes

namespace Embryo.Machine

theorem write_nil (mem : Memory) (a : Nat) : write mem a [] = mem := by
  funext x
  apply write_outside
  simp only [List.length_nil]
  omega

theorem bcopy_eq_write (mem : Memory) (s d n : Nat) : bcopy mem s d n = write mem d (bytes mem s n) := by
  funext x
  rw [bcopy_apply]
  by_cases inside : d ≤ x ∧ x < d + n
  · obtain ⟨i, rfl⟩ := Nat.exists_eq_add_of_le inside.1
    have short : i < (bytes mem s n).length := by
      rw [bytes_length]
      omega
    rw [if_pos inside, write_inside short, bytes_get, Nat.add_sub_cancel_left]
  · rw [if_neg inside, write_outside (by rw [bytes_length]; exact inside)]

theorem write_append (mem : Memory) (a : Nat) (xs ys : List UInt8) :
    write (write mem a xs) (a + xs.length) ys = write mem a (xs ++ ys) := by
  funext x
  unfold write
  by_cases low : a ≤ x
  · by_cases early : x < a + xs.length
    · rw [if_neg (by omega), if_pos (by omega), if_pos (by simp only [List.length_append]; omega),
        List.getD_append _ _ _ _ (by omega)]
    · by_cases late : x < a + xs.length + ys.length
      · rw [if_pos (by omega), if_pos (by simp only [List.length_append]; omega),
          List.getD_append_right _ _ _ _ (by omega)]
        congr 1
        omega
      · rw [if_neg (by omega), if_neg (by omega), if_neg (by simp only [List.length_append]; omega)]
  · rw [if_neg (by omega), if_neg (by omega), if_neg (by omega)]

/-- The part of a block from `k` on replaced by `ys`. -/
def splice (block : List UInt8) (k : Nat) (ys : List UInt8) : List UInt8 :=
  block.take k ++ ys ++ block.drop (k + ys.length)

theorem splice_length {block ys : List UInt8} {k : Nat} (fits : k + ys.length ≤ block.length) :
    (splice block k ys).length = block.length := by
  simp only [splice, List.length_append, List.length_take, List.length_drop]
  omega

theorem write_bytes (mem : Memory) (a n : Nat) : write mem a (bytes mem a n) = mem := by
  funext x
  by_cases inside : a ≤ x ∧ x < a + (bytes mem a n).length
  · obtain ⟨i, rfl⟩ := Nat.exists_eq_add_of_le inside.1
    have bound : i < (bytes mem a n).length := by omega
    rw [write_inside bound, bytes_get]
  · exact write_outside inside

theorem write_splice (mem : Memory) {a n k : Nat} {ys : List UInt8} (fits : k + ys.length ≤ n) :
    write mem a (splice (bytes mem a n) k ys) = write mem (a + k) ys := by
  have front : (bytes mem a n).take k = bytes mem a k := bytes_take mem (by omega)
  have back : (bytes mem a n).drop (k + ys.length) = bytes mem (a + k + ys.length) (n - (k + ys.length)) := by
    rw [bytes_drop mem fits, Nat.add_assoc]
  have behind : bytes (write mem (a + k) ys) (a + k + ys.length) (n - (k + ys.length)) =
      bytes mem (a + k + ys.length) (n - (k + ys.length)) := by
    apply bytes_congr
    intro x low high
    exact write_outside (by omega)
  unfold splice
  rw [front, back, List.append_assoc, ← write_append, write_bytes, bytes_length, ← write_append, ← behind,
    write_bytes]

theorem bytes_shift {mem mem' : Memory} {a b n : Nat} (same : ∀ k < n, mem' (b + k) = mem (a + k)) :
    bytes mem' b n = bytes mem a n := by
  induction n generalizing a b with
  | zero => rfl
  | succ n ih =>
    have first := same 0 (by omega)
    rw [Nat.add_zero, Nat.add_zero] at first
    rw [bytes, bytes, first]
    congr 1
    apply ih
    intro k bound
    have next := same (k + 1) (by omega)
    rw [Nat.add_assoc, Nat.add_assoc, Nat.add_comm 1 k]
    exact next

end Embryo.Machine
