import Embryo.Common.Chksum
import Embryo.Machine.CString

namespace Embryo.Common

open Embryo.Machine
open Embryo.Inet (word)

structure FlashMap where
  flmBase : Nat
  flmSize : Nat

def platFlashmaps : List FlashMap := [⟨0xbfc00000, 0x100000⟩]

def findFlashMap (base : Nat) : Option FlashMap :=
  platFlashmaps.find? fun p => base ≥ p.flmBase && base < wrap (p.flmBase + p.flmSize)

def nvramBase : Nat := 0xbfc00000

def nvramEnvoffs : Nat := 0x80000

def nvramEnvsize : Nat := 256 * 64 + 2

/-- The variables of `mach_mapenv`, with `bp` and `vp` as places in `buf`, and what has been read of the flash
    and written to `buf`. -/
structure Mapping where
  ep : Nat
  bp : Nat
  vp : Option Nat
  i : Int
  buf : Memory
  reads : List Nat
  writes : List Nat

/-- A pass of the inner loop, whose condition counts, copies a byte and looks at the end of the area. -/
def copyPass (mem : Memory) (stop : Nat) (s : Mapping) : Option (Pass Mapping Mapping) :=
  if s.i = 0 then some (.leave { s with i := s.i - 1 })
  else
    let s : Mapping := {
      ep := s.ep + 1
      bp := s.bp + 1
      vp := s.vp
      i := s.i - 1
      buf := Function.update s.buf s.bp (mem s.ep)
      reads := s.reads ++ [s.ep]
      writes := s.writes ++ [s.bp] }
    if s.buf (s.bp - 1) = 0 then some (.leave s)
    else if ¬ s.ep < stop then some (.leave s)
    else if s.buf (s.bp - 1) = 61 ∧ s.vp ≠ none then
      some
        (.again { s with
          buf := Function.update s.buf (s.bp - 1) 0, vp := some s.bp, writes := s.writes ++ [s.bp - 1] })
    else some (.again s)

structure Mapped where
  ret : Int
  calls : List (Option Str × Option Str)
  reads : List Nat
  writes : List Nat

def pairPass (fuel : Nat) (mem : Memory) (stop : Nat) (state : Mapping × List (Option Str × Option Str)) :
    Option (Pass (Mapping × List (Option Str × Option Str)) Mapped) :=
  let (s, calls) := state
  if s.ep < stop then
    match loop (copyPass mem stop) fuel { s with vp := none, bp := 0, i := 256 } with
    | none => none
    | some s =>
      match s.vp with
      | some vp =>
        if s.ep < stop ∧ s.i > 0 then some (.again (s, calls ++ [(fetch s.buf fuel 0, fetch s.buf fuel vp)]))
        else some (.leave ⟨-3, calls, s.reads, s.writes⟩)
      | none => some (.again (s, calls))
  else some (.leave ⟨0, calls, s.reads, s.writes⟩)

/-- `mach_mapenv`, where `buf` is what the buffer on the stack begins with. -/
def machMapenv (fuel : Nat) (mem buf : Memory) : Option Mapped :=
  match findFlashMap nvramBase with
  | none => some ⟨-1, [], [], []⟩
  | some map =>
    let envBase := map.flmBase + nvramEnvoffs
    let chk := word mem envBase
    match chksum fuel mem (envBase + 2) (nvramEnvsize - 2 : Nat) with
    | none => none
    | some (reads, sum) =>
      let reads := envBase :: (envBase + 1) :: reads
      if chk ≠ sum then some ⟨0, [], reads, []⟩
      else loop (pairPass fuel mem (envBase + nvramEnvsize - 1)) fuel
        (⟨envBase + 2, 0, none, 0, buf, reads, []⟩, [])

def envBase : Nat := nvramBase + nvramEnvoffs

structure Pair where
  name : Str
  value : Str
  plain : 61 ∉ name
  ended : 0 ∉ name ++ value
  short : name.length + 1 + value.length < 256

def Pair.text (p : Pair) : Str := p.name ++ 61 :: p.value

structure Image (mem : Memory) (pairs : List Pair) : Prop where
  checked : ∃ fuel reads, chksum fuel mem (envBase + 2) (nvramEnvsize - 2 : Nat) =
    some (reads, word mem envBase)
  content : ∃ k > 0, bytes mem (envBase + 2) (nvramEnvsize - 2) =
    pairs.flatMap (fun p => p.text ++ [0]) ++ List.replicate k 0

/-- The function ends without leaving the area or the buffer, and decodes the strings of an image. -/
def Decodes (mem buf : Memory) : Prop :=
  ∃ enough, ∀ fuel ≥ enough, ∃ out, machMapenv fuel mem buf = some out ∧
    (∀ a ∈ out.reads, envBase ≤ a ∧ a < envBase + nvramEnvsize) ∧ (∀ a ∈ out.writes, a < 256) ∧
    ∀ pairs, Image mem pairs → out.ret = 0 ∧ out.calls = pairs.map fun p => (some p.name, some p.value)

structure Inside (reads writes : List Nat) : Prop where
  area : ∀ a ∈ reads, envBase ≤ a ∧ a < envBase + nvramEnvsize
  buffer : ∀ a ∈ writes, a < 256

structure Copying (from' stop : Nat) (s : Mapping) : Prop where
  unset : s.vp = none
  count : (s.bp : Int) + s.i = 256
  left : 0 ≤ s.i
  area : envBase ≤ s.ep ∧ s.ep < stop
  onward : from' < s.ep ∨ s.i = 256 ∧ s.ep = from'
  inside : Inside s.reads s.writes

theorem Inside.read {reads writes : List Nat} (inside : Inside reads writes) {a b : Nat}
    (here : envBase ≤ a ∧ a < envBase + nvramEnvsize) (room : b < 256) :
    Inside (reads ++ [a]) (writes ++ [b]) := by
  constructor
  · intro x member
    rcases List.mem_append.mp member with old | new
    · exact inside.area x old
    · rwa [List.mem_singleton.mp new]
  · intro x member
    rcases List.mem_append.mp member with old | new
    · exact inside.buffer x old
    · rwa [List.mem_singleton.mp new]

section

variable {mem : Memory} {from' stop fuel : Nat} {s : Mapping}

theorem Copying.pass (copying : Copying from' stop s) (bound : stop < envBase + nvramEnvsize) :
    (∃ next, copyPass mem stop s = some (.again next) ∧ Copying from' stop next ∧ next.i.toNat < s.i.toNat) ∨
      ∃ done, copyPass mem stop s = some (.leave done) ∧ done.vp = none ∧ from' < done.ep ∧
        done.ep ≤ stop ∧ envBase ≤ done.ep ∧
        Inside done.reads done.writes := by
  have unset := copying.unset
  have count := copying.count
  have left := copying.left
  have area := copying.area
  have onward := copying.onward
  unfold copyPass
  by_cases spent : s.i = 0
  · right
    rw [if_pos spent]
    exact ⟨_, rfl, unset, by simp only; omega, by simp only; omega, area.1, copying.inside⟩
  · have inside := copying.inside.read (show envBase ≤ s.ep ∧ s.ep < envBase + nvramEnvsize by
      omega) (show s.bp < 256 by omega)
    rw [if_neg spent]
    simp only [unset, ne_eq, not_true_eq_false, and_false, if_false]
    by_cases ended : Function.update s.buf s.bp (mem s.ep) (s.bp + 1 - 1) = 0
    · right
      rw [if_pos ended]
      exact ⟨_, rfl, rfl, by simp only; omega, by simp only; omega, by simp only; omega, inside⟩
    · rw [if_neg ended]
      by_cases last : s.ep + 1 < stop
      · left
        rw [if_neg (not_not.mpr last)]
        refine ⟨_, rfl, ⟨rfl, ?_, ?_, ⟨?_, last⟩, .inl ?_, inside⟩, ?_⟩
        all_goals
          simp only
          omega
      · right
        rw [if_pos last]
        exact ⟨_, rfl, rfl, by simp only; omega, by simp only; omega, by simp only; omega, inside⟩

theorem copy_leaves (bound : stop < envBase + nvramEnvsize) (enough : 256 < fuel)
    (below : envBase ≤ s.ep ∧ s.ep < stop) (inside : Inside s.reads s.writes) :
    ∃ done, loop (copyPass mem stop) fuel { s with vp := none, bp := 0, i := 256 } = some done ∧
      done.vp = none ∧
      s.ep < done.ep ∧ done.ep ≤ stop ∧ envBase ≤ done.ep ∧ Inside done.reads done.writes := by
  apply loop_variant (Copying s.ep stop) (fun s => s.i.toNat) _ (fun s copying => copying.pass bound) fuel
  · exact ⟨rfl, rfl, Int.natCast_nonneg 256, below, .inr ⟨rfl, rfl⟩, inside⟩
  · exact enough

theorem pairs_leave (bound : stop < envBase + nvramEnvsize) (enough : 256 < fuel) (long : stop - s.ep < fuel)
    (area : envBase ≤ s.ep) (inside : Inside s.reads s.writes) :
    ∃ out, loop (pairPass fuel mem stop) fuel (s, []) = some out ∧ out.ret = 0 ∧ out.calls = [] ∧
      Inside out.reads out.writes := by
  apply loop_variant (fun state => state.2 = [] ∧ envBase ≤ state.1.ep ∧ Inside state.1.reads state.1.writes)
    (fun state => stop - state.1.ep) _ _ fuel _ ⟨rfl, area, inside⟩ long
  rintro ⟨s, calls⟩ ⟨rfl, area, inside⟩
  unfold pairPass
  simp only at area inside ⊢
  by_cases more : s.ep < stop
  · left
    obtain ⟨done, copied, unset, onward, high, low, kept⟩ :=
      @copy_leaves mem _ _ _ bound enough ⟨area, more⟩ inside
    rw [if_pos more, copied]
    simp only [unset]
    refine ⟨_, rfl, ⟨rfl, low, kept⟩, ?_⟩
    simp only
    omega
  · right
    rw [if_neg more]
    exact ⟨_, rfl, rfl, rfl, inside⟩

end

theorem machMapenv_silent (mem buf : Memory) :
    ∃ enough, ∀ fuel ≥ enough, ∃ out, machMapenv fuel mem buf = some out ∧
    out.ret = 0 ∧ out.calls = [] ∧ Inside out.reads out.writes := by
  obtain ⟨fuel, reads, v, summed, inside, _⟩ :=
    sumUp_returns mem (envBase + 2) (show nvramEnvsize - 2 ≤ 65535 by decide)
  have size : nvramEnvsize = 16386 := rfl
  have area : Inside (envBase :: (envBase + 1) :: reads) [] := by
    refine ⟨fun a member => ?_, nofun⟩
    simp only [List.mem_cons] at member
    rcases member with rfl | rfl | rest
    · omega
    · omega
    · have := inside a rest
      omega
  refine ⟨fuel + nvramEnvsize, fun more bound => ?_⟩
  have summed' : chksum more mem (envBase + 2) (nvramEnvsize - 2 : Nat) = some (reads, 0xffff - v) := by
    obtain ⟨s, w, words, folds, same, value⟩ := sumUp_some.mp summed
    exact sumUp_some.mpr ⟨s, w, loop_mono words (by omega) fun _ _ passed => passed,
      loop_mono folds (by omega) fun _ _ passed => passed, same, value⟩
  have found : findFlashMap nvramBase = some ⟨nvramBase, 0x100000⟩ := rfl
  have base : nvramBase + nvramEnvoffs = envBase := rfl
  rw [machMapenv, found]
  simp only [base, summed']
  split
  · exact ⟨_, rfl, rfl, rfl, area⟩
  · exact pairs_leave (by omega) (by omega) (by simp only; omega) (Nat.le_add_right envBase 2) area

/-- Every string of an image is lost, as `vp` stays null. -/
theorem mapenv_decodes_iff (mem buf : Memory) :
    Decodes mem buf ↔ ¬ ∃ pairs, pairs ≠ [] ∧ Image mem pairs := by
  obtain ⟨enough, silent⟩ := machMapenv_silent mem buf
  constructor
  · rintro ⟨enough', decodes⟩ ⟨pairs, some', image⟩
    obtain ⟨out, runs, _, calls, _⟩ := silent (max enough enough') (Nat.le_max_left _ _)
    obtain ⟨out', runs', _, _, decoded⟩ := decodes (max enough enough') (Nat.le_max_right _ _)
    cases runs.symm.trans runs'
    rw [(decoded pairs image).2] at calls
    exact some' (List.map_eq_nil_iff.mp calls)
  · intro none
    refine ⟨enough, fun fuel bound => ?_⟩
    obtain ⟨out, runs, ret, calls, inside⟩ := silent fuel bound
    refine ⟨out, runs, inside.area, inside.buffer, ?_⟩
    intro pairs image
    have empty : pairs = [] := by
      by_contra some'
      exact none ⟨pairs, some', image⟩
    rw [empty, calls]
    exact ⟨ret, rfl⟩

theorem words_zeros (n : Nat) : (words (List.replicate n 0)).sum = 0 := by
  induction n using Nat.twoStepInduction with
  | zero => rfl
  | one => rfl
  | more n ih _ =>
    rw [List.replicate_succ, List.replicate_succ, words, List.sum_cons, ih]
    rfl

theorem bytes_zeros {mem : Memory} {a n : Nat} (clear : ∀ x, a ≤ x → mem x = 0) :
    bytes mem a n = List.replicate n 0 := by
  induction n generalizing a with
  | zero => rfl
  | succ n ih => rw [bytes, clear a (Nat.le_refl a), ih fun x low => clear x (by omega), List.replicate_succ]

theorem chksum_small {mem : Memory} {buf n : Nat} (small : (words (bytes mem buf n)).sum < 2^16) :
    ∃ fuel reads, chksum fuel mem buf n = some (reads, 0xffff - (words (bytes mem buf n)).sum) := by
  obtain ⟨s, runs, total, _⟩ := wordPass_leaves mem n buf 0 [] (by omega)
  rw [Nat.zero_add] at total
  refine ⟨n + 1, (lastByte mem s).reads, sumUp_some.mpr ⟨s, (words (bytes mem buf n)).sum, runs, ?_,
    rfl, by omega⟩⟩
  rw [total, wrap_of_lt (by omega)]
  have same : (words (bytes mem buf n)).sum / 2^16 + (words (bytes mem buf n)).sum % 2^16 =
      (words (bytes mem buf n)).sum := by
    omega
  rw [same]
  exact loop_leave (Nat.succ_pos n) (if_neg (by omega))

def pairAB : Pair := ⟨[97], [98], by decide, by decide, by decide⟩

def flashAB : Memory := fun a =>
  if a = envBase then 0x3c else if a = envBase + 1 then 0xc2 else if a = envBase + 2 then 97
    else if a = envBase + 3 then 61
  else if a = envBase + 4 then 98 else 0

theorem flashAB_bytes : bytes flashAB (envBase + 2)
    (nvramEnvsize - 2) = pairAB.text ++ 0 :: List.replicate 16380 0 := by
  have clear : ∀ x, envBase + 6 ≤ x → flashAB x = 0 := by
    intro x low
    unfold flashAB
    repeat rw [if_neg (by omega)]
  have first : bytes flashAB (envBase + 2) 4 = pairAB.text ++ [0] := by decide
  have split : nvramEnvsize - 2 = 4 + 16380 := rfl
  rw [split, bytes_add, bytes_zeros clear, first, List.append_assoc, List.singleton_append]

theorem flashAB_image : Image flashAB [pairAB] := by
  constructor
  · have sum : (words (bytes flashAB (envBase + 2) (nvramEnvsize - 2))).sum = 0x3dc3 := by
      rw [flashAB_bytes]
      have first : ∀ rest, words (pairAB.text ++ 0 :: rest) = 0x3d61 :: 0x62 :: words rest := fun _ => rfl
      rw [first, List.sum_cons, List.sum_cons, words_zeros]
    obtain ⟨fuel, reads, summed⟩ :=
      chksum_small (sum ▸ by decide : (words (bytes flashAB (envBase + 2) (nvramEnvsize - 2))).sum < 2^16)
    rw [sum] at summed
    exact ⟨fuel, reads, summed⟩
  · refine ⟨16380, by decide, ?_⟩
    rw [flashAB_bytes, List.flatMap_cons, List.flatMap_nil, List.append_nil, List.append_assoc,
      List.singleton_append]

theorem string_lost : ¬ Decodes flashAB (fun _ => 0) := by
  rw [mapenv_decodes_iff, not_not]
  exact ⟨[pairAB], List.cons_ne_nil _ _, flashAB_image⟩

end Embryo.Common
