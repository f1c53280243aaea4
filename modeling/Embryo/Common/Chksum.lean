import Embryo.Common.Climb
import Embryo.Inet.Cksum
import Embryo.Machine.Loop

namespace Embryo.Common

open Embryo.Machine
open Embryo.Inet (word inCksum)
open Embryo.Uipc (Mbuf)
open Relation (ReflTransGen)

structure Scan where
  sum : Nat
  pos : Nat
  len : Int
  reads : List Nat

def wordPass (mem : Memory) (s : Scan) : Option (Pass Scan Scan) :=
  if s.len - 2 ≥ 0 then
    some (.again ⟨wrap (s.sum + word mem s.pos), s.pos + 2, s.len - 2, s.reads ++ [s.pos, s.pos + 1]⟩)
  else some (.leave s)

def foldPass (sum : Nat) : Option (Pass Nat Nat) :=
  if sum / 2^16 ≠ 0 then some (.again (wrap (sum + sum / 2^16))) else some (.leave sum)

def lastByte (mem : Memory) (s : Scan) : Scan :=
  if s.len = 1 then ⟨wrap (s.sum + (mem s.pos).toNat), s.pos, s.len, s.reads ++ [s.pos]⟩ else s

/-- The body that the three functions share: the addresses that are read, and the value returned. -/
def sumUp (fuel : Nat) (mem : Memory) (buf : Nat) (len : Int) : Option (List Nat × Nat) := do
  let s ← loop (wordPass mem) fuel ⟨0, buf, len, []⟩
  let s := lastByte mem s
  let sum ← loop foldPass fuel (wrap (s.sum / 2^16 + s.sum % 2^16))
  return (s.reads, 0xffff - sum % 2^16)

def getchksum (fuel : Nat) (mem : Memory) (packet : Nat) (len : Int) : Option (List Nat × Nat) :=
  sumUp fuel mem packet len

def chksum (fuel : Nat) (mem : Memory) (p : Nat) (n : Int) : Option (List Nat × Nat) := sumUp fuel mem p n

def __calc_chksum (fuel : Nat) (mem : Memory) (buf : Nat) (len : Int) : Option (List Nat × Nat) :=
  sumUp fuel mem buf len

/-- The function returns the Internet checksum of the `n` bytes at `buf`, which is that of `in_cksum`,
    and reads nothing but these bytes. -/
def Right (f : Nat → Memory → Nat → Int → Option (List Nat × Nat)) (mem : Memory) (buf n : Nat) : Prop :=
  ∃ fuel reads sum, f fuel mem buf n = some (reads, sum) ∧ (∀ a ∈ reads, buf ≤ a ∧ a < buf + n) ∧
    sum = inetChecksum (bytes mem buf n) ∧ ∀ m : Mbuf, m.data = buf → m.len = n → sum = inCksum mem [m] n

abbrev Foldable (bs : List UInt8) : Prop := (words bs).sum / 2^16 + (words bs).sum % 2^16 < 2^16

theorem foldPass_leaves {v w : Nat} (grows : ReflTransGen Grows v w) (done : wrap w < 2^16) :
    ∃ fuel, loop foldPass fuel (wrap v) = some (wrap w) := by
  induction grows using ReflTransGen.head_induction_on with
  | refl =>
    refine ⟨1, loop_leave Nat.one_pos ?_⟩
    rw [foldPass, if_neg (by omega)]
  | @head a b step _ ih =>
    obtain ⟨low, high, rfl⟩ := step
    obtain ⟨fuel, runs⟩ := ih
    refine ⟨fuel + 1, (loop_again ?_).trans runs⟩
    rw [wrap_of_lt high, foldPass, if_pos (by omega)]

theorem words_sum_le (bs : List UInt8) : (words bs).sum ≤ 0xffff * ((bs.length + 1) / 2) := by
  induction bs using List.twoStepInduction with
  | nil => simp [words]
  | singleton b =>
    have := b.toNat_lt
    simp only [words, List.sum_singleton, List.length_singleton]
    omega
  | cons_cons b c bs ih _ =>
    have := b.toNat_lt
    have := c.toNat_lt
    simp only [words, List.sum_cons, List.length_cons]
    omega

theorem wordPass_leaves (mem : Memory) (n pos sum : Nat) (reads : List Nat)
    (bound : sum + (words (bytes mem pos n)).sum < 2^32) :
    ∃ s, loop (wordPass mem) (n + 1) ⟨sum, pos, n, reads⟩ = some s ∧
      (lastByte mem s).sum = sum + (words (bytes mem pos n)).sum ∧
      ∀ a ∈ (lastByte mem s).reads, a ∈ reads ∨ pos ≤ a ∧ a < pos + n := by
  induction n using Nat.twoStepInduction generalizing pos sum reads with
  | zero =>
    refine ⟨_, loop_leave Nat.one_pos (if_neg (by simp)), ?_, ?_⟩
    · simp [lastByte, words, bytes]
    · exact fun a held => .inl held
  | one =>
    refine ⟨_, loop_leave (Nat.succ_pos _) (if_neg (by simp)), ?_, ?_⟩
    · exact wrap_of_lt bound
    · intro a held
      rcases List.mem_append.mp held with old | new
      · exact .inl old
      · have same : a = pos := List.mem_singleton.mp new
        exact .inr (by omega)
  | more n ih _ =>
    have first : words (bytes mem pos (n + 2)) = word mem pos :: words (bytes mem (pos + 2) n) := rfl
    rw [first, List.sum_cons] at bound ⊢
    obtain ⟨s, runs, total, inside⟩ := ih (pos + 2) (sum + word mem pos) (reads ++ [pos, pos + 1]) (by omega)
    refine ⟨s, ?_, by omega, ?_⟩
    · have again : wordPass mem ⟨sum, pos, (n + 2 : Nat), reads⟩ =
          some (.again ⟨sum + word mem pos, pos + 2, n, reads ++ [pos, pos + 1]⟩) := by
        have left : ((n + 2 : Nat) : Int) - 2 = n := by omega
        have short : sum + word mem pos < 2^32 := by omega
        rw [wordPass, left, if_pos (Int.natCast_nonneg n), wrap_of_lt short]
      rw [loop_again again]
      exact loop_mono runs (Nat.le_succ _) fun _ _ passed => passed
    · intro a held
      rcases inside a held with old | new
      · rcases List.mem_append.mp old with old | new
        · exact .inl old
        · rw [List.mem_pair] at new
          exact .inr (by omega)
      · exact .inr (by omega)

theorem sumUp_some {fuel : Nat} {mem : Memory} {buf : Nat} {len : Int} {reads : List Nat} {sum : Nat} :
    sumUp fuel mem buf len = some (reads, sum) ↔ ∃ s v, loop (wordPass mem) fuel ⟨0, buf, len, []⟩ = some s ∧
      loop foldPass fuel (wrap ((lastByte mem s).sum / 2^16 + (lastByte mem s).sum % 2^16)) = some v ∧
      (lastByte mem s).reads = reads ∧ 0xffff - v % 2^16 = sum := by
  simp [sumUp, Option.bind_eq_some_iff]

theorem ones_folded (bs : List UInt8) : Ones ((words bs).sum / 2^16 + (words bs).sum % 2^16) (number bs) := by
  have folds : Ones ((words bs).sum / 2^16 + (words bs).sum % 2^16) (words bs).sum := by
    simp only [Ones]
    omega
  exact folds.trans (ones_words_sum bs)

theorem sumUp_returns (mem : Memory) (buf : Nat) {n : Nat} (bound : n ≤ 65535) :
    ∃ fuel reads v, sumUp fuel mem buf n = some (reads, 0xffff - v) ∧ (∀ a ∈ reads, buf ≤ a ∧ a < buf + n) ∧
      (inetChecksum (bytes mem buf n) = 0xffff - v ↔ Foldable (bytes mem buf n)) := by
  have size := words_sum_le (bytes mem buf n)
  rw [bytes_length] at size
  obtain ⟨s, runs, total, inside⟩ := wordPass_leaves mem n buf 0 [] (by omega)
  rw [Nat.zero_add] at total
  have reads : ∀ a ∈ (lastByte mem s).reads, buf ≤ a ∧ a < buf + n := fun a held =>
    (inside a held).resolve_left List.not_mem_nil
  have folded := ones_folded (bytes mem buf n)
  rw [Foldable]
  generalize sums : (words (bytes mem buf n)).sum = sum at *
  by_cases fits : sum / 2^16 + sum % 2^16 < 2^16
  · have stays : loop foldPass (n + 1) (wrap (sum / 2^16 + sum % 2^16)) = some (sum / 2^16 + sum % 2^16) := by
      rw [wrap_of_lt (by omega)]
      exact loop_leave (Nat.succ_pos n) (if_neg (by omega))
    refine ⟨n + 1, _, sum / 2^16 + sum % 2^16,
      sumUp_some.mpr ⟨s, _, runs, total ▸ stays, rfl, by omega⟩, reads, ?_⟩
    exact iff_of_true (inetChecksum_eq folded (by omega)) fits
  · obtain ⟨fuel, ends⟩ := foldPass_leaves (carry_grows (Nat.le_of_not_lt fits) (by omega)) (by decide)
    have value : wrap (2^32 + 0x9cf9) = 0x9cf9 := by decide
    rw [value] at ends
    refine ⟨n + 1 + fuel, _, 0x9cf9, sumUp_some.mpr ⟨s, _, loop_mono runs (by omega) fun _ _ passed => passed,
      total ▸ loop_mono ends (by omega) fun _ _ passed => passed, rfl, by decide⟩, reads, ?_⟩
    refine iff_of_false (fun same => ?_) fits
    have right : Ones (sum / 2^16 + sum % 2^16 - 0xffff) (number (bytes mem buf n)) := by
      refine Ones.trans ?_ folded
      simp only [Ones]
      omega
    rw [inetChecksum_eq right (by omega)] at same
    omega

theorem right_sumUp_iff (mem : Memory) (buf : Nat) {n : Nat} (bound : n ≤ 65535) :
    Right sumUp mem buf n ↔ Foldable (bytes mem buf n) := by
  obtain ⟨fuel, reads, v, runs, inside, exact⟩ := sumUp_returns mem buf bound
  rw [← exact]
  constructor
  · rintro ⟨fuel', reads', sum, runs', -, same, -⟩
    obtain ⟨s, w, words, folds, -, value⟩ := sumUp_some.mp runs
    obtain ⟨s', w', words', folds', -, value'⟩ := sumUp_some.mp runs'
    obtain rfl := loop_unique words words'
    obtain rfl := loop_unique folds folds'
    rw [← same, ← value', value]
  · intro same
    refine ⟨fuel, reads, 0xffff - v, runs, inside, same.symm, fun m start length => ?_⟩
    have chain := @Inet.inCksum_take mem [m] n (by simpa [length] using by omega) bound
    have whole : (Uipc.flatten mem [m]).take n = bytes mem buf n := by
      rw [Uipc.flatten_cons, start, length, Uipc.flatten, List.flatMap_nil, List.append_nil]
      exact List.take_of_length_le (Nat.le_of_eq (bytes_length _ _ _))
    rw [chain, whole, same]

/-- The three functions agree with the Internet checksum where the halves of the sum are added
    without a carry. -/
theorem chksums_right_iff (mem : Memory) (buf n : Nat) (bound : n ≤ 65535) :
    Right getchksum mem buf n ∧ Right chksum mem buf n ∧ Right __calc_chksum mem buf n ↔
      Foldable (bytes mem buf n) := by
  have one := right_sumUp_iff mem buf bound
  exact ⟨fun all => one.mp all.1, fun fits => ⟨one.mpr fits, one.mpr fits, one.mpr fits⟩⟩

theorem chksums_right_carried :
    Right getchksum (fun a => if a < 2 then 0xff else 2) 0 3 ∧
      Right chksum (fun a => if a < 2 then 0xff else 2) 0 3 ∧
      Right __calc_chksum (fun a => if a < 2 then 0xff else 2) 0 3 :=
  (chksums_right_iff (fun a => if a < 2 then 0xff else 2) 0 3 (by decide)).mpr (by decide)

/-- Of the five bytes `ff ff ff ff 01` the checksum is `fffe`. -/
theorem carry_lost : ¬ Right getchksum (fun a => if a < 4 then 0xff else 1) 0 5 := by
  rw [show getchksum = sumUp from rfl, right_sumUp_iff _ _ (by decide)]
  decide

end Embryo.Common
