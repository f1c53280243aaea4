import Embryo.Machine.Scan
import Embryo.Net.Refines

namespace Embryo.Radix

open Embryo.Machine
open Embryo.Net (Caddr.len maskByte maskBit)

def SameBits (skip : Nat) (m n : Caddr) : Prop := ∀ j ≥ 8 * skip, maskBit m j = maskBit n j

def Contiguous (skip : Nat) (m : Caddr) (p : Nat) : Prop := ∀ j ≥ 8 * skip, maskBit m j = decide (j < p)

def Blank (skip : Nat) (m : Caddr) : Prop := ∀ i ≥ skip, maskByte m i = 0

/-- The key that `rn_addmask` puts together for a mask: its length up to the last one, ones, and the
    bytes from `skip` on. -/
structure IsKey (skip : Nat) (m : Caddr) (key : Nat → UInt8) : Prop where
  ones : ∀ i, 1 ≤ i → i < skip → key i = 0xff
  bytes : ∀ i ≥ skip, key i = maskByte m i
  more : skip < (key 0).toNat
  last : maskByte m ((key 0).toNat - 1) ≠ 0
  ended : ∀ i ≥ (key 0).toNat, maskByte m i = 0

variable {skip p p' : Nat} {m n : Caddr} {key key' : Nat → UInt8}

theorem sameBits_iff : SameBits skip m n ↔ ∀ i ≥ skip, maskByte m i = maskByte n i := by
  constructor
  · exact fun same i low => byte_eq_iff.mpr fun j first _ => same j (by omega)
  · exact fun same j low => byte_eq_iff.mp (same (j / 8) (by omega)) j (by omega) (by omega)

theorem IsKey.not_blank (isKey : IsKey skip m key) : ¬ Blank skip m := by
  have more := isKey.more
  exact fun blank => isKey.last (blank _ (by omega))

theorem IsKey.unique (isKey : IsKey skip m key) (isKey' : IsKey skip n key') (positive : 1 ≤ skip)
    (same : SameBits skip m n) :
    key = key' := by
  rw [sameBits_iff] at same
  have more := isKey.more
  have more' := isKey'.more
  have length : (key 0).toNat = (key' 0).toNat := by
    rcases Nat.lt_trichotomy (key 0).toNat (key' 0).toNat with less | equal | greater
    · have zero := isKey.ended ((key' 0).toNat - 1) (by omega)
      rw [same _ (by omega)] at zero
      exact absurd zero isKey'.last
    · exact equal
    · have zero := isKey'.ended ((key 0).toNat - 1) (by omega)
      rw [← same _ (by omega)] at zero
      exact absurd zero isKey.last
  funext i
  by_cases first : i = 0
  · rw [first]
    exact UInt8.toNat_inj.mp length
  by_cases low : i < skip
  · rw [isKey.ones i (by omega) low, isKey'.ones i (by omega) low]
  · rw [isKey.bytes i (by omega), isKey'.bytes i (by omega), same i (by omega)]

theorem IsKey.same (isKey : IsKey skip m key) (isKey' : IsKey skip n key') {width : Nat}
    (short : ∀ i ≥ width, maskByte m i = 0 ∧ maskByte n i = 0)
    (agree : ∀ i < width, key i = key' i) : SameBits skip m n := by
  rw [sameBits_iff]
  intro i low
  by_cases inside : i < width
  · rw [← isKey.bytes i low, ← isKey'.bytes i low, agree i inside]
  · obtain ⟨left, right⟩ := short i (by omega)
    rw [left, right]

theorem maskBit_of_key (isKey : IsKey skip m key) {j : Nat} (low : 8 * skip ≤ j) :
    maskBit m j = bitAt key j := by
  have here := isKey.bytes (j / 8) (by omega)
  exact (byte_eq_iff.mp here j (by omega) (by omega)).symm

theorem Contiguous.behind (contiguous : Contiguous skip m p) (some : ¬ Blank skip m) : 8 * skip < p := by
  by_contra upto
  apply some
  intro i low
  apply byte_zero_iff.mpr
  intro j first _
  exact (contiguous j (by omega)).trans (decide_eq_false (by omega))

theorem Contiguous.unique (first : Contiguous skip m p) (second : Contiguous skip m p')
    (some : ¬ Blank skip m) : p = p' := by
  have low := first.behind some
  have low' := second.behind some
  rcases Nat.lt_trichotomy p p' with less | equal | greater
  · have bit := first p (by omega)
    rw [second p (by omega), decide_eq_true less, decide_eq_false (by omega)] at bit
    cases bit
  · exact equal
  · have bit := second p' (by omega)
    rw [first p' (by omega), decide_eq_true greater, decide_eq_false (by omega)] at bit
    cases bit

def leading (a : UInt8) : Nat := ((List.range 8).takeWhile fun k => (0x80 >>> UInt8.ofNat k) &&& a ≠ 0).length

theorem leading_lt : ∀ a : UInt8, a ≠ 0xff → leading a < 8 := by decide +kernel

theorem normalChars_bits : ∀ q < 8, leading (normalChars.getD q 0) = q ∧ normalChars.getD q 0 ≠ 0xff ∧
    ∀ k < 8, (normalChars.getD q 0).toNat.testBit (7 - k) = decide (k < q) := by
  decide

theorem normalChars_iff {q : Nat} (small : q < 8) {a : UInt8} :
    a = normalChars.getD q 0 ↔ ∀ k < 8, a.toNat.testBit (7 - k) = decide (k < q) := by
  have bits := (normalChars_bits q small).2.2
  constructor
  · intro same
    rw [same]
    exact bits
  · intro same
    exact testBit_ext fun k low => (same k low).trans (bits k low).symm

theorem normal_byte (a : UInt8) (other : a ≠ 0xff) : leading a < 8 ∧
    (a = normalChars.getD (leading a) 0 ↔ ∀ k < 8, a.toNat.testBit (7 - k) = decide (k < leading a)) :=
  ⟨leading_lt a other, normalChars_iff (leading_lt a other)⟩

theorem leading_unique (q : Nat) (small : q < 8) (a : UInt8)
    (bits : ∀ k < 8, a.toNat.testBit (7 - k) = decide (k < q)) :
    leading a = q ∧ a ≠ 0xff := by
  obtain ⟨count, other, -⟩ := normalChars_bits q small
  rw [(normalChars_iff small).mpr bits]
  exact ⟨count, other⟩

section Index

variable {cp : Caddr} {c : Nat} (isKey : IsKey skip m cp.bytes) (before : ∀ i, skip ≤ i → i < c →
  cp i = 0xff) (low : skip ≤ c)

include isKey

theorem bits_ended {j : Nat} (past : 8 * (cp 0).toNat ≤ j) : maskBit m j = false :=
  byte_zero_iff.mp (isKey.ended (j / 8) (by omega)) j (by omega) (by omega)

include before

theorem bits_before {j : Nat} (first : 8 * skip ≤ j) (last : j < 8 * c) : maskBit m j = true := by
  rw [maskBit_of_key isKey first]
  exact byte_ones_iff.mp (before (j / 8) (by omega) (by omega)) j (by omega) (by omega)

theorem contiguous_whole (all : c = (cp 0).toNat) : Contiguous skip m (c * 8) := by
  intro j first
  by_cases inside : j < 8 * c
  · rw [bits_before isKey before first inside, decide_eq_true (by omega)]
  · rw [bits_ended isKey (by omega), decide_eq_false (by omega)]

theorem contiguous_part (other : cp c ≠ 0xff) (last : c = (cp 0).toNat - 1)
    (normal : cp c = normalChars.getD (leading (cp c)) 0) :
    Contiguous skip m (leading (cp c) + c * 8) := by
  obtain ⟨small, iff⟩ := normal_byte (cp c) other
  have bits := iff.mp normal
  have more := isKey.more
  intro j first
  by_cases inside : j < 8 * c
  · rw [bits_before isKey before first inside, decide_eq_true (by omega)]
  by_cases within : j < 8 * c + 8
  · obtain ⟨k, rfl⟩ := Nat.exists_eq_add_of_le (show 8 * c ≤ j by omega)
    have bit := bits k (by omega)
    rw [maskBit_of_key isKey first, bitAt_byte cp.bytes c (by omega), bit, decide_eq_decide]
    omega
  · rw [bits_ended isKey (by omega), decide_eq_false (by omega)]

include low in
theorem part_of_contiguous (other : cp c ≠ 0xff) (inside : c < (cp 0).toNat)
    (contiguous : Contiguous skip m p) :
    c = (cp 0).toNat - 1 ∧ cp c = normalChars.getD (leading (cp c)) 0 ∧ leading (cp c) + c * 8 = p := by
  have behind := contiguous.behind isKey.not_blank
  have from_c : 8 * c ≤ p := by
    by_contra less
    have one := bits_before isKey before (show 8 * skip ≤ p by omega) (by omega)
    rw [contiguous p (by omega), decide_eq_false (by omega)] at one
    cases one
  have upto : p < 8 * c + 8 := by
    by_contra beyond
    apply other
    apply byte_ones_iff.mpr
    intro j first last
    rw [← maskBit_of_key isKey (by omega), contiguous j (by omega), decide_eq_true (by omega)]
  obtain ⟨q, rfl⟩ := Nat.exists_eq_add_of_le from_c
  have bits : ∀ k < 8, (cp c).toNat.testBit (7 - k) = decide (k < q) := by
    intro k small
    rw [← bitAt_byte cp.bytes c small, ← maskBit_of_key isKey (by omega), contiguous _ (by omega),
      decide_eq_decide]
    omega
  obtain ⟨count, -⟩ := leading_unique q (by omega) (cp c) bits
  refine ⟨?_, ?_, by omega⟩
  · by_contra earlier
    apply isKey.last
    apply byte_zero_iff.mpr
    intro j first _
    exact (contiguous j (by omega)).trans (decide_eq_false (by omega))
  · apply (normal_byte (cp c) other).2.mpr
    rw [count]
    exact bits

end Index

theorem maskIndex_spec {cp : Caddr} (isKey : IsKey skip m cp.bytes) :
    ((maskIndex cp skip (cp 0).toNat).1 = true ↔ ∃ p, Contiguous skip m p) ∧
      ∀ p, Contiguous skip m p → (maskIndex cp skip (cp 0).toNat).2 = p := by
  have more := isKey.more
  obtain ⟨bound, all, stop⟩ := takeWhile_range' (fun i => decide (cp i = 0xff)) skip ((cp 0).toNat - skip)
  unfold maskIndex
  dsimp only
  generalize ((List.range' skip ((cp 0).toNat - skip)).takeWhile fun i =>
    decide (cp i = 0xff)).length = count at bound all stop ⊢
  have before : ∀ i, skip ≤ i → i < skip + count → cp i = 0xff :=
    fun i low high => of_decide_eq_true (all i low high)
  have low : skip ≤ skip + count := by omega
  split
  · next whole =>
    have contiguous := contiguous_whole isKey before whole
    exact ⟨iff_of_true rfl ⟨_, contiguous⟩, fun p other => contiguous.unique other isKey.not_blank⟩
  · next part =>
    have inside : skip + count < (cp 0).toNat := by omega
    have other : cp (skip + count) ≠ 0xff := of_decide_eq_false (stop (by omega))
    have found := fun p => @part_of_contiguous skip p m cp (skip + count) isKey before low other inside
    change (decide (cp (skip + count) = normalChars.getD (leading (cp (skip + count))) 0 ∧
      skip + count = (cp 0).toNat - 1) = true ↔ _) ∧
      ∀ p, Contiguous skip m p → leading (cp (skip + count)) + (skip + count) * 8 = p
    rw [decide_eq_true_eq]
    constructor
    · constructor
      · rintro ⟨normal, last⟩
        exact ⟨_, contiguous_part isKey before other last normal⟩
      · rintro ⟨p, contiguous⟩
        obtain ⟨last, normal, -⟩ := found p contiguous
        exact ⟨normal, last⟩
    · exact fun p contiguous => (found p contiguous).2.2

/-- The buffer, as `rn_addmask` searches with it. -/
def bufferKey (T : Tables) (m : Caddr) (skip : Nat) : Nat → UInt8 :=
  Function.update (fun i => if (cutMask T m skip).2.1 ≤ i ∧ i < T.lastZeros then 0
    else (cutMask T m skip).1 i) 0
    (UInt8.ofNat (cutMask T m skip).2.2)

def keptKey (T : Tables) (m : Caddr) (skip : Nat) : Nat → UInt8 :=
  fun i => if i < (cutMask T m skip).2.2 then bufferKey T m skip i else 0

/-- The buffer between two calls: there are ones to copy, and zeros from `last_zeros` on. -/
structure Buffered (T : Tables) : Prop where
  ones : ∀ i < T.maxkeylen, T.ones i = 0xff
  zeros : ∀ i, T.lastZeros ≤ i → i < T.maxkeylen → T.addrmaskkey i = 0

section Cut

variable {T : Tables} (buffered : Buffered T) (length : Caddr.len m ≤ T.maxkeylen)
  (positive : 1 ≤ skip) (inside : skip < Caddr.len m)

include length in
theorem cutMask_len : (cutMask T m skip).2.1 = Caddr.len m := Nat.min_eq_left length

include length in
theorem cutMask_scan : (cutMask T m skip).2.2 ≤ Caddr.len m ∧
    (∀ i, (cutMask T m skip).2.2 ≤ i → i < Caddr.len m → (cutMask T m skip).1 i = 0) ∧
    (0 < (cutMask T m skip).2.2 → (cutMask T m skip).1 ((cutMask T m skip).2.2 - 1) ≠ 0) := by
  have len := @cutMask_len skip m T length
  obtain ⟨bound, all, stop⟩ := takeWhile_reverse_range (fun i =>
    decide ((cutMask T m skip).1 i = 0)) (Caddr.len m)
  have mlen : (cutMask T m skip).2.2 =
      Caddr.len m - ((List.range (Caddr.len m)).reverse.takeWhile fun i =>
          decide ((cutMask T m skip).1 i = 0)).length := by
    rw [← len]
    rfl
  rw [mlen]
  refine ⟨Nat.sub_le _ _, fun i low high => of_decide_eq_true (all i low high), fun some => ?_⟩
  exact of_decide_eq_false (stop (by omega))

include length inside in
theorem cutMask_bytes : (∀ i, skip ≤ i → i < Caddr.len m → (cutMask T m skip).1 i = m i) ∧
    (∀ i ≥ Caddr.len m, (cutMask T m skip).1 i = T.addrmaskkey i) := by
  have bound : min (m 0).toNat T.maxkeylen = Caddr.len m := Nat.min_eq_left length
  simp only [cutMask, bound]
  constructor
  · intro i low high
    rw [if_neg (by omega), if_pos ⟨low, high⟩]
  · intro i past
    rw [if_neg (by omega), if_neg (by omega)]

include buffered length inside in
theorem cutMask_ones : ∀ i, 1 ≤ i → i < skip → (cutMask T m skip).1 i = 0xff := by
  intro i low high
  simp only [cutMask]
  rw [if_pos ⟨low, high⟩]
  exact buffered.ones i (by omega)

include length positive inside in
theorem cutMask_blank : (cutMask T m skip).2.2 ≤ skip ↔ Blank skip m := by
  obtain ⟨bound, zeros, last⟩ := @cutMask_scan skip m T length
  obtain ⟨bytes, -⟩ := cutMask_bytes length inside
  constructor
  · intro short i low
    unfold maskByte
    split
    · next within => rw [← bytes i low within, zeros i (by omega) within]
    · rfl
  · intro blank
    by_contra more
    have zero := blank ((cutMask T m skip).2.2 - 1) (by omega)
    rw [maskByte, if_pos (by omega), ← bytes _ (by omega) (by omega)] at zero
    exact last (by omega) zero

include buffered length positive inside

theorem keptKey_isKey (some : ¬ Blank skip m) :
    IsKey skip m (keptKey T m skip) ∧ (keptKey T m skip 0).toNat = (cutMask T m skip).2.2 := by
  obtain ⟨bound, zeros, last⟩ := @cutMask_scan skip m T length
  obtain ⟨bytes, -⟩ := cutMask_bytes length inside
  have len := @cutMask_len skip m T length
  have more : skip < (cutMask T m skip).2.2 := by
    rw [← cutMask_blank length positive inside] at some
    omega
  have byte : Caddr.len m < 256 := (m 0).toNat_lt
  have kept : ∀ i, i ≠ 0 → i < (cutMask T m skip).2.2 → keptKey T m skip i = (cutMask T m skip).1 i := by
    intro i other inner
    rw [keptKey, if_pos inner, bufferKey, Function.update_of_ne other, if_neg (by omega)]
  have first : (keptKey T m skip 0).toNat = (cutMask T m skip).2.2 := by
    rw [keptKey, if_pos (by omega), bufferKey, Function.update_self, UInt8.toNat_ofNat']
    omega
  have ended : ∀ i, (cutMask T m skip).2.2 ≤ i → maskByte m i = 0 := by
    intro i past
    unfold maskByte
    split
    · next within => rw [← bytes i (by omega) within, zeros i past within]
    · rfl
  refine ⟨⟨fun i low high => ?_, fun i low => ?_, by omega, ?_, ?_⟩, first⟩
  · rw [kept i (by omega) (by omega), cutMask_ones buffered length inside i low high]
  · by_cases inner : i < (cutMask T m skip).2.2
    · rw [kept i (by omega) inner, bytes i low (by omega), maskByte, if_pos (by omega)]
    · rw [keptKey, if_neg inner, ended i (by omega)]
  · rw [first, maskByte, if_pos (by omega), ← bytes _ (by omega) (by omega)]
    exact last (by omega)
  · rw [first]
    exact ended

theorem bufferKey_eq (some : ¬ Blank skip m) :
    ∀ i < T.maxkeylen, bufferKey T m skip i = keptKey T m skip i := by
  obtain ⟨bound, zeros, last⟩ := @cutMask_scan skip m T length
  obtain ⟨-, behind⟩ := cutMask_bytes length inside
  have len := @cutMask_len skip m T length
  have more : skip < (cutMask T m skip).2.2 := by
    rw [← cutMask_blank length positive inside] at some
    omega
  intro i small
  rw [keptKey]
  split
  · rfl
  · next past =>
    rw [bufferKey, Function.update_of_ne (by omega)]
    split
    · rfl
    · next older =>
      by_cases within : i < Caddr.len m
      · exact zeros i (by omega) within
      · rw [behind i (by omega)]
        exact buffered.zeros i (by omega) small

end Cut

end Embryo.Radix
