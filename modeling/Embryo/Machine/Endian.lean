import Embryo.Machine.Bytes

namespace Embryo.Machine

def swap16 (x : UInt16) : UInt16 := ((x &&& 0x00ff) <<< 8) ||| ((x &&& 0xff00) >>> 8)

def swap32 (x : UInt32) : UInt32 :=
  ((x &&& 0x000000ff) <<< 24) ||| ((x &&& 0x0000ff00) <<< 8) |||
    ((x &&& 0x00ff0000) >>> 8) ||| ((x &&& 0xff000000) >>> 24)

theorem swap16_swap16 (x : UInt16) : swap16 (swap16 x) = x := by
  apply UInt16.toBitVec_inj.mp
  apply BitVec.eq_of_getLsbD_eq
  intro i less
  unfold swap16
  have cases : i = 0 ∨ i = 1 ∨ i = 2 ∨ i = 3 ∨ i = 4 ∨ i = 5 ∨ i = 6 ∨ i = 7 ∨
      i = 8 ∨ i = 9 ∨ i = 10 ∨ i = 11 ∨ i = 12 ∨ i = 13 ∨ i = 14 ∨ i = 15 := by omega
  rcases cases with rfl | rfl | rfl | rfl | rfl | rfl | rfl | rfl | rfl | rfl | rfl | rfl | rfl
    | rfl | rfl | rfl <;> simp

theorem swap32_append (x : UInt32) :
    (swap32 x).toBitVec = x.toBitVec.extractLsb' 0 8 ++ x.toBitVec.extractLsb' 8 8 ++
      x.toBitVec.extractLsb' 16 8 ++
      x.toBitVec.extractLsb' 24 8 := by
  apply BitVec.eq_of_getLsbD_eq
  intro i less
  unfold swap32
  rw [BitVec.getLsbD_append, BitVec.getLsbD_append, BitVec.getLsbD_append]
  interval_cases i <;> simp

theorem swap32_toNat (x : UInt32) :
    (swap32 x).toNat = x.toNat % 256 * 2^24 + x.toNat / 256 % 256 * 2^16 + x.toNat / 65536 % 256 *
      2^8 + x.toNat / 2^24 := by
  have bound := x.toNat_lt
  rw [← UInt32.toNat_toBitVec, swap32_append]
  simp only [BitVec.toNat_append, BitVec.extractLsb'_toNat, UInt32.toNat_toBitVec, Nat.shiftRight_eq_div_pow]
  rw [← Nat.shiftLeft_add_eq_or_of_lt (by omega), ← Nat.shiftLeft_add_eq_or_of_lt (by omega),
    ← Nat.shiftLeft_add_eq_or_of_lt (by omega)]
  simp only [Nat.shiftLeft_eq, Nat.reducePow, Nat.div_one]
  omega

theorem swap32_swap32 (x : UInt32) : swap32 (swap32 x) = x := by
  have bound := x.toNat_lt
  apply UInt32.toNat_inj.mp
  have swapped := swap32_toNat x
  rw [swap32_toNat]
  generalize (swap32 x).toNat = y at swapped ⊢
  generalize first : x.toNat % 256 = a at swapped
  generalize second : x.toNat / 256 % 256 = b at swapped
  generalize third : x.toNat / 65536 % 256 = c at swapped
  generalize fourth : x.toNat / 2^24 = d at swapped
  have whole : x.toNat = a + 256 * b + 65536 * c + 16777216 * d := by
    rw [show 65536 = 256 * 256 by rfl, ← Nat.div_div_eq_div_mul] at third
    rw [show 2^24 = 256 * 256 * 256 by rfl, ← Nat.div_div_eq_div_mul, ← Nat.div_div_eq_div_mul] at fourth
    omega
  have sizes : a < 256 ∧ b < 256 ∧ c < 256 ∧ d < 256 := by omega
  have bytes : y % 256 = d ∧ y / 256 % 256 = c ∧ y / 65536 % 256 = b ∧ y / 2^24 = a := by
    clear first second third fourth whole bound
    omega
  rw [bytes.1, bytes.2.1, bytes.2.2.1, bytes.2.2.2, whole]
  omega

abbrev htons : UInt16 → UInt16 := swap16
abbrev ntohs : UInt16 → UInt16 := swap16
abbrev htonl : UInt32 → UInt32 := swap32
abbrev ntohl : UInt32 → UInt32 := swap32

def bytes16 (x : UInt16) : List UInt8 := [UInt8.ofNat x.toNat, UInt8.ofNat (x.toNat / 256)]

def bytes32 (x : UInt32) : List UInt8 :=
  [UInt8.ofNat x.toNat, UInt8.ofNat (x.toNat / 256), UInt8.ofNat (x.toNat / 65536),
    UInt8.ofNat (x.toNat / 16777216)]

theorem bytes32_toNat (x : UInt32) :
    (bytes32 x).map UInt8.toNat = [x.toNat % 256, x.toNat / 256 % 256, x.toNat / 65536 % 256,
      x.toNat / 16777216] := by
  have bound := x.toNat_lt
  simp only [bytes32, List.map_cons, List.map_nil, UInt8.toNat_ofNat', Nat.reducePow]
  rw [Nat.mod_eq_of_lt (a := x.toNat / 16777216) (by omega)]

def get16 (mem : Memory) (a : Nat) : UInt16 := UInt16.ofNat ((mem a).toNat + 256 * (mem (a + 1)).toNat)

def get32 (mem : Memory) (a : Nat) : UInt32 := UInt32.ofNat (load32 mem a)

theorem get16_toNat (mem : Memory) (a : Nat) :
    (get16 mem a).toNat = (mem a).toNat + 256 * (mem (a + 1)).toNat := by
  have low := (mem a).toNat_lt
  have high := (mem (a + 1)).toNat_lt
  exact Nat.mod_eq_of_lt (by omega)

theorem get32_toNat (mem : Memory) (a : Nat) : (get32 mem a).toNat = load32 mem a := by
  have := (mem a).toNat_lt
  have := (mem (a + 1)).toNat_lt
  have := (mem (a + 2)).toNat_lt
  have := (mem (a + 3)).toNat_lt
  apply Nat.mod_eq_of_lt
  simp only [load32]
  omega

theorem get16_congr {mem mem' : Memory} {a : Nat} (same : ∀ x, a ≤ x → x < a + 2 → mem' x = mem x) :
    get16 mem' a = get16 mem a := by
  rw [get16, get16, same a (by omega) (by omega), same (a + 1) (by omega) (by omega)]

theorem get32_congr {mem mem' : Memory} {a : Nat} (same : ∀ x, a ≤ x → x < a + 4 → mem' x = mem x) :
    get32 mem' a = get32 mem a := by
  rw [get32, get32, load32_congr same]

theorem get16_of_bytes {mem : Memory} {a : Nat} {x : UInt16} (held : bytes mem a 2 = bytes16 x) :
    get16 mem a = x := by
  have bound := x.toNat_lt
  have cells := congrArg (List.map UInt8.toNat) held
  simp only [bytes, bytes16, List.map_cons, List.map_nil, UInt8.toNat_ofNat', Nat.reducePow,
    List.cons.injEq, and_true] at cells
  apply UInt16.toNat_inj.mp
  rw [get16_toNat, cells.1, cells.2]
  omega

theorem get32_of_bytes {mem : Memory} {a : Nat} {x : UInt32} (held : bytes mem a 4 = bytes32 x) :
    get32 mem a = x := by
  have bound := x.toNat_lt
  have cells := congrArg (List.map UInt8.toNat) held
  rw [bytes32_toNat] at cells
  simp only [bytes, List.map_cons, List.map_nil, List.cons.injEq, and_true] at cells
  obtain ⟨first, second, third, fourth⟩ := cells
  apply UInt32.toNat_inj.mp
  rw [get32_toNat, load32, first, second, third, fourth]
  omega

theorem get16_write (mem : Memory) (a : Nat) (x : UInt16) : get16 (write mem a (bytes16 x)) a = x :=
  get16_of_bytes (bytes_write mem a (bytes16 x))

theorem get32_write (mem : Memory) (a : Nat) (x : UInt32) : get32 (write mem a (bytes32 x)) a = x :=
  get32_of_bytes (bytes_write mem a (bytes32 x))

end Embryo.Machine
