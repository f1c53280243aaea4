import Embryo.Machine.Ones
import Embryo.Machine.Word
import Embryo.Uipc.Write

namespace Embryo.Inet

open Embryo.Machine
open Embryo.Uipc (Mbuf Chain flatten total)

def signed (x : Nat) : Int := if x < 2^31 then x else (x : Int) - 2^32

def addcarry (sum : Nat) : Nat := if signed sum > 0xffff then wsub sum 0xffff else sum

def reduce (sum : Nat) : Nat := addcarry (sum % 2^16 + sum / 2^16)

def word (mem : Memory) (w : Nat) : Nat := (mem w).toNat + 256 * (mem (w + 1)).toNat

/-- `sum += w[0]; sum += w[1]; ...` for `count` words. -/
def addWords (mem : Memory) : Nat → Nat → Nat → Nat
  | 0, _, sum => sum
  | count + 1, w, sum => addWords mem count (w + 2) (wrap (sum + word mem w))

/-- `while((mlen -= 2 * count) >= 0)`, with `count` words a pass: `w`, `mlen` and `sum` after it. -/
def unrolled (mem : Memory) (count : Nat) : Nat → Nat → Int → Nat → Nat × Int × Nat
  | 0, w, mlen, sum => (w, mlen, sum)
  | fuel + 1, w, mlen, sum =>
    if mlen - 2 * count ≥ 0 then
      unrolled mem count fuel (w + 2 * count) (mlen - 2 * count) (addWords mem count w sum)
    else (w, mlen - 2 * count, sum)

/-- The variables of `in_cksum` between two mbufs: `mlen` is -1 when a byte is pending in `c0`,
    which is `s_util.c[0]`. -/
structure Summing where
  sum : Nat
  mlen : Int
  len : Int
  c0 : UInt8

/-- `sum += s_util.s`. -/
def addUtil (sum : Nat) (c0 c1 : UInt8) : Nat := wrap (sum + (c0.toNat + 256 * c1.toNat))

def drain (mem : Memory) (w : Nat) (mlen len : Int) (sum : Nat) (c0 : UInt8) (swapped : Bool) : Summing :=
  let (w, mlen, sum) := unrolled mem 16 (mlen.toNat + 1) w mlen sum
  let mlen := mlen + 32
  let (w, mlen, sum) := unrolled mem 4 (mlen.toNat + 1) w mlen sum
  let mlen := mlen + 8
  if mlen = 0 ∧ ¬ swapped then ⟨sum, mlen, len, c0⟩
  else
    let sum := reduce sum
    let (w, mlen, sum) := unrolled mem 1 (mlen.toNat + 1) w mlen sum
    if swapped then
      let sum := wrap (reduce sum * 256)
      if mlen = -1 then ⟨addUtil sum c0 (mem w), 0, len, c0⟩
      else ⟨sum, -1, len, c0⟩
    else ⟨sum, mlen, len, if mlen = -1 then mem w else c0⟩

/-- The part of a segment from the even position `w` of the data on. -/
def evenPart (mem : Memory) (w : Nat) (mlen len : Int) (sum : Nat) (c0 : UInt8) : Summing :=
  let mlen := if mlen > len then len else mlen
  let len := len - mlen
  if w % 2 = 1 ∧ mlen ≠ 0 then drain mem (w + 1) (mlen - 1) len (wrap (reduce sum * 256)) (mem w) true
  else drain mem w mlen len sum c0 false

def segment (mem : Memory) (m : Mbuf) (s : Summing) : Summing :=
  if s.mlen = -1 then
    evenPart mem (m.data + 1) (signed (m.len - 1)) (s.len - 1) (addUtil s.sum s.c0 (mem m.data)) s.c0
  else evenPart mem m.data (signed m.len) s.len s.sum s.c0

def segments (mem : Memory) : Chain → Summing → Summing
  | [], s => s
  | m :: n, s =>
    if s.len = 0 then s
    else if m.len = 0 then segments mem n s
    else segments mem n (segment mem m s)

def inCksum (mem : Memory) (m : Chain) (len : Int) : Nat :=
  let s := segments mem m ⟨0, 0, len, 0⟩
  let sum := if s.mlen = -1 then addUtil s.sum s.c0 0 else s.sum
  0xffff - reduce sum % 2^16

theorem signed_of_lt {x : Nat} (bound : x < 2^31) : signed x = x := if_pos bound

theorem reduce_spec (sum : Nat) (bound : sum < 2^32) :
    reduce sum ≤ 0xffff ∧ reduce sum ≤ sum ∧ Ones (reduce sum) sum := by
  have halves : sum % 2^16 + sum / 2^16 ≤ 0x1fffe := by omega
  rw [reduce, addcarry, signed_of_lt (by omega)]
  simp only [Ones]
  split
  · rw [wsub_of_le (by omega) (by omega)]
    omega
  · omega

structure Added (mem : Memory) (w n sum sum' : Nat) : Prop where
  even : n % 2 = 0
  value : Ones sum' (sum + number (bytes mem w n))
  bound : sum' ≤ 0x8000 * n + sum

variable {mem : Memory} {w n k sum sum' sum'' : Nat}

theorem Added.zero (mem : Memory) (w sum : Nat) : Added mem w 0 sum sum :=
  ⟨rfl, Ones.refl _, Nat.le_add_left _ _⟩

theorem Added.trans (first : Added mem w n sum sum') (second : Added mem (w + n) k sum' sum'') :
    Added mem w (n + k) sum sum'' := by
  obtain ⟨even, value, bound⟩ := first
  obtain ⟨even', value', bound'⟩ := second
  refine ⟨by omega, ?_, by omega⟩
  have split := @ones_number_append (bytes mem w n) (by rw [bytes_length]; exact even)
    (bytes mem (w + n) k)
  rw [bytes_add]
  have joined := (value.add (Ones.refl (number (bytes mem (w + n) k))))
  rw [Nat.add_assoc] at joined
  exact value'.trans (joined.trans ((Ones.refl sum).add split.symm))

theorem added_word (mem : Memory) (w sum : Nat) (bound : 0x10000 + sum < 2^32) :
    Added mem w 2 sum (wrap (sum + word mem w)) := by
  have low := (mem w).toNat_lt
  have high := (mem (w + 1)).toNat_lt
  have small : word mem w ≤ 0xffff := by
    simp only [word]
    omega
  rw [wrap_of_lt (by omega)]
  refine ⟨rfl, ?_, by omega⟩
  have same : number (bytes mem w 2) = word mem w := by
    simp only [bytes, number, word]
    omega
  rw [same]
  exact Ones.refl _

theorem addWords_added (mem : Memory) (count w sum : Nat) (bound : 0x10000 * count + sum < 2^32) :
    Added mem w (2 * count) sum (addWords mem count w sum) := by
  induction count generalizing w sum with
  | zero => exact Added.zero mem w sum
  | succ count ih =>
    have first := added_word mem w sum (by omega)
    have size := first.bound
    rw [addWords]
    generalize wrap (sum + word mem w) = next at *
    have later := first.trans (ih (w + 2) next (by omega))
    rwa [Nat.add_comm 2 (2 * count)] at later

theorem unrolled_added {count : Nat} (positive : 0 < count) {fuel : Nat} (n w sum : Nat)
    (enough : n < fuel) (bound : 0x8000 * n + sum < 2^32) :
    ∃ sum', unrolled mem count fuel w n sum =
        (w + (n - n % (2 * count)), (n % (2 * count) : Nat) - (2 * count : Int), sum') ∧
      Added mem w (n - n % (2 * count)) sum sum' := by
  induction fuel generalizing n w sum with
  | zero => omega
  | succ fuel ih =>
    by_cases more : 2 * count ≤ n
    · have again : ((n : Int) - 2 * count ≥ 0) := by omega
      have less : (n : Int) - 2 * count = ((n - 2 * count : Nat) : Int) := by omega
      have first := addWords_added mem count w sum (by omega)
      have size := first.bound
      obtain ⟨sum', rest, added⟩ := ih (n - 2 * count) (w + 2 * count) (addWords mem count w sum)
        (by omega) (by omega)
      have remainder : (n - 2 * count) % (2 * count) = n % (2 * count) := (Nat.mod_eq_sub_mod more).symm
      have small : n % (2 * count) < 2 * count := Nat.mod_lt _ (by omega)
      have inner := Nat.mod_le (n - 2 * count) (2 * count)
      rw [remainder] at rest added inner
      refine ⟨sum', ?_, ?_⟩
      · rw [unrolled, if_pos again, less, rest]
        congr 1
        omega
      · have whole := first.trans added
        rwa [show 2 * count + (n - 2 * count - n % (2 * count)) = n - n % (2 * count) from by omega] at whole
    · have stop : ¬ ((n : Int) - 2 * count ≥ 0) := by omega
      have remainder : n % (2 * count) = n := Nat.mod_eq_of_lt (by omega)
      refine ⟨sum, ?_, ?_⟩
      · rw [unrolled, if_neg stop, remainder, Nat.sub_self, Nat.add_zero]
      · rw [remainder, Nat.sub_self]
        exact Added.zero mem w sum

/-- What has been summed so far is `xs`, but for the byte pending in `c0` when their number is odd. -/
structure Summed (s : Summing) (xs : List UInt8) : Prop where
  value : (s.mlen ≠ -1 ∧ xs.length % 2 = 0 ∧ Ones s.sum (number xs)) ∨
    (s.mlen = -1 ∧ xs.length % 2 = 1 ∧ Ones (s.sum + s.c0.toNat) (number xs))
  bound : s.sum ≤ 0x10000 * (xs.length / 2) + 0xffff00

theorem ones_append {xs : List UInt8} (even : xs.length % 2 = 0) (value : Ones sum (number xs))
    (ys : List UInt8) : Ones (sum + number ys) (number (xs ++ ys)) :=
  (value.add (Ones.refl _)).trans (ones_number_append even ys).symm

theorem bytes_snoc (mem : Memory) (w n : Nat) : bytes mem w (n + 1) = bytes mem w n ++ [mem (w + n)] := by
  rw [bytes_add]
  rfl

theorem words_added (w n sum : Nat) (bound : 0x8000 * n + sum < 2^32) :
    ∃ sum₁ sum₂ : Nat,
      Added mem w (n - n % 32) sum sum₁ ∧
      unrolled mem 16 (n + 1) w n sum = (w + (n - n % 32), ((n % 32 : Nat) : Int) - 32, sum₁) ∧
      Added mem w (n - n % 8) sum sum₂ ∧
      unrolled mem 4 (n % 32 + 1) (w + (n - n % 32)) (n % 32 : Nat) sum₁ =
        (w + (n - n % 8), ((n % 8 : Nat) : Int) - 8, sum₂) := by
  obtain ⟨sum₁, first, added₁⟩ := @unrolled_added mem 16 (by decide) (n + 1) n w sum (by omega) bound
  have size := added₁.bound
  obtain ⟨sum₂, second, added₂⟩ := @unrolled_added mem 4 (by decide) (n % 32 + 1) (n % 32)
    (w + (n - n % 32)) sum₁ (by omega) (by omega)
  have whole := added₁.trans added₂
  have nested : n % 32 % 8 = n % 8 := Nat.mod_mod_of_dvd n (by decide)
  simp only [Nat.reduceMul, nested] at first second whole added₁
  refine ⟨sum₁, sum₂, added₁, first, ?_, ?_⟩
  · rwa [show n - n % 32 + (n % 32 - n % 8) = n - n % 8 from by omega] at whole
  · rw [second]
    congr 1
    omega

section

variable {xs : List UInt8} {len : Int} {c0 : UInt8} (even : xs.length % 2 = 0)
  (value : Ones sum (number xs)) (bound : sum ≤ 0x10000 * (xs.length / 2) + 0xffff00)

include even value bound

theorem drain_aligned (limit : xs.length + n ≤ 65535) :
    Summed (drain mem w n len sum c0 false) (xs ++ bytes mem w n) ∧
      (drain mem w n len sum c0 false).len = len := by
  obtain ⟨sum₁, sum₂, _, first, added, second⟩ := @words_added mem w n sum (by omega)
  have size := added.bound
  obtain ⟨short, less, same⟩ := reduce_spec sum₂ (by omega)
  obtain ⟨sum₃, third, last⟩ := @unrolled_added mem 1 (by decide) (n % 8 + 1) (n % 8) (w + (n - n % 8))
    (reduce sum₂) (by omega) (by omega)
  have nested : n % 8 % 2 = n % 2 := Nat.mod_mod_of_dvd n (by decide)
  simp only [Nat.reduceMul, nested] at third last
  have fold : Added mem w (n - n % 8) sum (reduce sum₂) :=
    ⟨added.even, same.trans added.value, by omega⟩
  have whole := fold.trans last
  rw [show n - n % 8 + (n % 8 - n % 2) = n - n % 2 from by omega] at whole
  have place : w + (n - n % 8) + (n % 8 - n % 2) = w + (n - n % 2) := by omega
  rw [place] at third
  simp only [drain, Int.toNat_natCast, first, Int.sub_add_cancel, second, Bool.false_eq_true,
    not_false_eq_true,
    and_true, if_false, third]
  have length : (xs ++ bytes mem w n).length = xs.length + n := by rw [List.length_append, bytes_length]
  split
  · rename_i zero
    have none : n % 8 = 0 := by omega
    rw [none, Nat.sub_zero] at added
    refine ⟨⟨.inl ⟨?_, by omega, ?_⟩, ?_⟩, rfl⟩
    · show ((n % 8 : Nat) : Int) ≠ -1
      omega
    · exact added.value.trans (ones_append even value _)
    · rw [length]
      simp only
      omega
  · have long := whole.bound
    refine ⟨⟨?_, by rw [length]; simp only; omega⟩, rfl⟩
    by_cases odd : n % 2 = 1
    · right
      rw [odd] at whole ⊢
      refine ⟨rfl, by omega, ?_⟩
      have snoc : bytes mem w n = bytes mem w (n - 1) ++ [mem (w + (n - 1))] := by
        rw [← bytes_snoc]
        congr 1
        omega
      have front := whole.value.trans (ones_append even value _)
      have evenFront : (xs ++ bytes mem w (n - 1)).length % 2 = 0 := by
        rw [List.length_append, bytes_length]
        omega
      have joined := ones_append evenFront front [mem (w + (n - 1))]
      rw [snoc, ← List.append_assoc]
      simpa [number] using joined
    · left
      have none : n % 2 = 0 := by omega
      rw [none] at whole ⊢
      refine ⟨by simp, by omega, ?_⟩
      rw [Nat.sub_zero] at whole
      exact whole.value.trans (ones_append even value _)

theorem drain_swapped (limit : xs.length + (n + 1) ≤ 65535) :
    Summed (drain mem (w + 1) n len (wrap (reduce sum * 256)) (mem w) true) (xs ++ bytes mem w (n + 1)) ∧
      (drain mem (w + 1) n len (wrap (reduce sum * 256)) (mem w) true).len = len := by
  obtain ⟨short₀, less₀, same₀⟩ := reduce_spec sum (by omega)
  have shifted : wrap (reduce sum * 256) = 256 * reduce sum := by
    rw [Nat.mul_comm]
    exact wrap_of_lt (by omega)
  rw [shifted]
  obtain ⟨sum₁, sum₂, _, first, added, second⟩ := @words_added mem (w + 1) n (256 * reduce sum) (by omega)
  have size := added.bound
  obtain ⟨short, less, same⟩ := reduce_spec sum₂ (by omega)
  obtain ⟨sum₃, third, last⟩ := @unrolled_added mem 1 (by decide) (n % 8 + 1) (n % 8)
    (w + 1 + (n - n % 8)) (reduce sum₂) (by omega) (by omega)
  have nested : n % 8 % 2 = n % 2 := Nat.mod_mod_of_dvd n (by decide)
  simp only [Nat.reduceMul, nested] at third last
  have fold : Added mem (w + 1) (n - n % 8) (256 * reduce sum) (reduce sum₂) :=
    ⟨added.even, same.trans added.value, by omega⟩
  have whole := fold.trans last
  rw [show n - n % 8 + (n % 8 - n % 2) = n - n % 2 from by omega] at whole
  rw [show w + 1 + (n - n % 8) + (n % 8 - n % 2) = w + 1 + (n - n % 2) from by omega] at third
  have long := whole.bound
  obtain ⟨short₃, _, same₃⟩ := reduce_spec sum₃ (by omega)
  have shifted₃ : wrap (reduce sum₃ * 256) = 256 * reduce sum₃ := by
    rw [Nat.mul_comm]
    exact wrap_of_lt (by omega)
  have length : (xs ++ bytes mem w (n + 1)).length = xs.length + n + 1 := by
    rw [List.length_append, bytes_length]
    rfl
  have back : Ones (256 * reduce sum₃) (sum + 256 * number (bytes mem (w + 1) (n - n % 2))) := by
    have inner := (same₃.trans whole.value).shift
    rw [Nat.mul_add] at inner
    apply inner.trans
    apply Ones.add
    · exact (ones_double_shift _).trans same₀
    · exact Ones.refl _
  simp only [drain, Int.toNat_natCast, first, Int.sub_add_cancel, second, not_true_eq_false, and_false,
    if_false, if_true, third, shifted₃]
  have start : bytes mem w (n + 1) = mem w :: bytes mem (w + 1) n := rfl
  by_cases odd : n % 2 = 1
  · rw [odd] at back ⊢
    have snoc : bytes mem (w + 1) n = bytes mem (w + 1) (n - 1) ++ [mem (w + 1 + (n - 1))] := by
      rw [← bytes_snoc]
      congr 1
      omega
    have tail := @ones_number_append (bytes mem (w + 1) (n - 1)) (by rw [bytes_length]; omega)
      [mem (w + 1 + (n - 1))]
    have byte := (mem (w + 1 + (n - 1))).toNat_lt
    have byte₀ := (mem w).toNat_lt
    have util : addUtil (256 * reduce sum₃) (mem w) (mem (w + 1 + (n - 1))) =
        256 * reduce sum₃ + ((mem w).toNat + 256 * (mem (w + 1 + (n - 1))).toNat) := wrap_of_lt (by omega)
    have close : ((1 : Nat) : Int) - 2 * ((1 : Nat) : Int) = -1 := by decide
    rw [if_pos close, util]
    refine ⟨⟨.inl ⟨by simp, by omega, ?_⟩, by rw [length]; simp only; omega⟩, rfl⟩
    refine Ones.trans ?_ (ones_append even value _)
    rw [start, snoc, number]
    have split := tail.shift
    simp only [number, Nat.mul_zero, Nat.add_zero] at split
    -- the two bytes that are left are added on both sides, and the even one goes back into the string
    have together := back.add (Ones.refl ((mem w).toNat + 256 * (mem (w + 1 + (n - 1))).toNat))
    have apart := (Ones.refl (sum + (mem w).toNat)).add split.symm
    generalize number (bytes mem (w + 1) (n - 1)) = front at together apart
    rw [show sum + 256 * front + ((mem w).toNat + 256 * (mem (w + 1 + (n - 1))).toNat) =
      sum + (mem w).toNat + 256 * (front + (mem (w + 1 + (n - 1))).toNat) by ring] at together
    rw [← Nat.add_assoc sum]
    exact together.trans apart
  · have none : n % 2 = 0 := by omega
    rw [none] at back ⊢
    have close : ¬ ((0 : Nat) : Int) - 2 * ((1 : Nat) : Int) = -1 := by decide
    rw [if_neg close]
    refine ⟨⟨.inr ⟨rfl, by omega, ?_⟩, by rw [length]; simp only; omega⟩, rfl⟩
    refine Ones.trans ?_ (ones_append even value _)
    rw [start, number]
    rw [Nat.sub_zero] at back
    have together := back.add (Ones.refl (mem w).toNat)
    rw [Nat.add_assoc sum, Nat.add_comm (256 * number _)] at together
    exact together

theorem evenPart_summed {left : Nat} (limit : xs.length + left ≤ 65535) :
    Summed (evenPart mem w n left sum c0) (xs ++ bytes mem w (min n left)) ∧
      (evenPart mem w n left sum c0).len = ((left - min n left : Nat) : Int) := by
  have count : (if (n : Int) > left then (left : Int) else n) = ((min n left : Nat) : Int) := by
    split <;> omega
  have rest : (left : Int) - ((min n left : Nat) : Int) = ((left - min n left : Nat) : Int) := by omega
  simp only [evenPart, count, rest]
  split
  · rename_i odd
    have positive : 0 < min n left := by omega
    have less : ((min n left : Nat) : Int) - 1 = ((min n left - 1 : Nat) : Int) := by omega
    have done := @drain_swapped mem w (min n left - 1) sum xs ((left - min n left : Nat) : Int)
      even value bound
      (by omega)
    rw [Nat.sub_add_cancel positive] at done
    rw [less]
    exact done
  · exact drain_aligned even value bound (by omega)

end

theorem segment_summed {m : Mbuf} {s : Summing} {xs : List UInt8} {left : Nat} (summed : Summed s xs)
    (remaining : s.len = left) (more : 0 < left) (nonempty : 0 < m.len) (size : m.len < 2^31)
    (limit : xs.length + left ≤ 65535) :
    Summed (segment mem m s) (xs ++ bytes mem m.data (min m.len left)) ∧
      (segment mem m s).len = ((left - min m.len left : Nat) : Int) := by
  obtain ⟨value | value, bound⟩ := summed
  · obtain ⟨none, even, value⟩ := value
    rw [segment, if_neg none, remaining, signed_of_lt size]
    exact evenPart_summed even value bound limit
  · obtain ⟨pending, odd, value⟩ := value
    have byte := (mem m.data).toNat_lt
    have byte₀ := s.c0.toNat_lt
    have util : addUtil s.sum s.c0 (mem m.data) = s.sum + (s.c0.toNat + 256 * (mem m.data).toNat) :=
      wrap_of_lt (by omega)
    have even : (xs ++ [mem m.data]).length % 2 = 0 := by
      rw [List.length_append, List.length_singleton]
      omega
    have joined : Ones (addUtil s.sum s.c0 (mem m.data)) (number (xs ++ [mem m.data])) := by
      refine Ones.trans ?_ (ones_number_append_odd odd [mem m.data]).symm
      rw [util]
      simp only [number, Nat.mul_zero, Nat.add_zero]
      simp only [Ones] at *
      omega
    have short : addUtil s.sum s.c0 (mem m.data) ≤ 0x10000 * ((xs ++ [mem m.data]).length / 2) +
        0xffff00 := by
      rw [util, List.length_append, List.length_singleton]
      omega
    have step := @evenPart_summed mem (m.data + 1) (m.len - 1) _ _ s.c0 even joined short (left - 1) (by
      rw [List.length_append, List.length_singleton]
      omega)
    have less : s.len - 1 = ((left - 1 : Nat) : Int) := by omega
    have taken : bytes mem m.data (min m.len left) =
        [mem m.data] ++ bytes mem (m.data + 1) (min (m.len - 1) (left - 1)) := by
      rw [show min m.len left = min (m.len - 1) (left - 1) + 1 from by omega]
      rfl
    rw [segment, if_pos pending, signed_of_lt (by omega), less, taken, ← List.append_assoc]
    refine ⟨step.1, step.2.trans ?_⟩
    congr 1
    omega

theorem segments_summed {chain : Chain} {s : Summing} {xs : List UInt8} {left : Nat} (summed : Summed s xs)
    (remaining : s.len = left) (size : ∀ m ∈ chain, m.len < 2^31) (limit : xs.length + left ≤ 65535) :
    Summed (segments mem chain s) (xs ++ (flatten mem chain).take left) := by
  induction chain generalizing s xs left with
  | nil => simpa [flatten, segments] using summed
  | cons m n ih =>
    have rest : ∀ e ∈ n, e.len < 2^31 := fun e member => size e (List.mem_cons_of_mem _ member)
    rw [segments]
    split
    · rename_i zero
      have none : left = 0 := by omega
      simpa [none] using summed
    · split
      · rename_i empty
        rw [Uipc.flatten_cons, empty]
        exact ih summed remaining rest limit
      · obtain ⟨step, remaining'⟩ := @segment_summed mem m s xs left summed remaining (by omega)
          (by omega) (size m List.mem_cons_self) limit
        have next := ih step remaining' rest (by
          rw [List.length_append, bytes_length]
          omega)
        rw [List.append_assoc] at next
        rw [Uipc.flatten_cons, List.take_append, bytes_length]
        have front : (bytes mem m.data m.len).take left = bytes mem m.data (min m.len left) := by
          rcases Nat.le_total left m.len with short | long
          · rw [bytes_take mem short, Nat.min_eq_right short]
          · rw [List.take_of_length_le (by rw [bytes_length]; exact long), Nat.min_eq_left long]
        have amount : left - min m.len left = left - m.len := by omega
        rw [front, ← amount]
        exact next

theorem inCksum_take (mem : Memory) {m : Chain} {len : Nat} (size : ∀ e ∈ m, e.len < 2^31)
    (bound : len ≤ 65535) :
    inCksum mem m len = inetChecksum ((flatten mem m).take len) := by
  have start : Summed ⟨0, 0, len, 0⟩ [] := ⟨.inl ⟨by simp, rfl, Ones.refl _⟩, by simp⟩
  have summed := @segments_summed mem m _ _ len start rfl size (by simpa using bound)
  rw [List.nil_append] at summed
  have count : ((flatten mem m).take len).length ≤ 65535 := by
    rw [List.length_take]
    omega
  simp only [inCksum]
  generalize segments mem m ⟨0, 0, len, 0⟩ = s at *
  generalize (flatten mem m).take len = xs at *
  have byte := s.c0.toNat_lt
  obtain ⟨value | value, small⟩ := summed
  · obtain ⟨none, _, value⟩ := value
    obtain ⟨short, _, same⟩ := reduce_spec s.sum (by omega)
    rw [if_neg none, Nat.mod_eq_of_lt (by omega)]
    exact (inetChecksum_eq (same.trans value) short).symm
  · obtain ⟨pending, _, value⟩ := value
    have util : addUtil s.sum s.c0 0 = s.sum + s.c0.toNat := by
      have pad : s.c0.toNat + 256 * (0 : UInt8).toNat = s.c0.toNat := rfl
      rw [addUtil, pad]
      exact wrap_of_lt (by omega)
    obtain ⟨short, _, same⟩ := reduce_spec (s.sum + s.c0.toNat) (by omega)
    rw [if_pos pending, util, Nat.mod_eq_of_lt (by omega)]
    exact (inetChecksum_eq (same.trans value) short).symm

/-- `in_cksum` is the Internet checksum of the first `len` bytes of the chain, or of all of them when
    there are fewer, however they are divided and wherever they lie. -/
theorem inCksum_eq_inetChecksum (mem : Memory) {m : Chain} {len : Nat} (size : ∀ e ∈ m, e.len < 2^31)
    (bound : len ≤ 65535) :
    inCksum mem m len = inetChecksum ((flatten mem m).take (min len (total m))) := by
  have taken : (flatten mem m).take (min len (total m)) = (flatten mem m).take len := by
    rw [← Uipc.flatten_length mem m, List.take_eq_take_iff]
    omega
  rw [taken]
  exact inCksum_take mem size bound

abbrev oddPart : Mbuf := ⟨0, 101, 3, Uipc.noFlags, 2, ⟨5, 0⟩, ⟨0, 0, 0, 0⟩⟩
abbrev evenTail : Mbuf := ⟨0, 200, 2, Uipc.noFlags, 2, ⟨0, 0⟩, ⟨0, 0, 0, 0⟩⟩

theorem inCksum_odd_segment :
    inCksum (fun x => UInt8.ofNat x) [oddPart, evenTail] 5 = inetChecksum [101, 102, 103, 200, 201] :=
  @inCksum_eq_inetChecksum (fun x => UInt8.ofNat x) [oddPart, evenTail] 5 (by decide) (by decide)

end Embryo.Inet
