import Embryo.Lib.Memcpy
import Embryo.Machine.Loop
import Embryo.Machine.Splice
import Embryo.Machine.Transfer
import Embryo.Machine.Word
import Embryo.Sock.Receive

namespace Embryo.Kernel

open Embryo.Machine Embryo.Lib

structure Iovec where
  base : Nat
  len : Nat
deriving DecidableEq

inductive UioRwflag where
  | read
  | write
deriving DecidableEq

structure Uio where
  past : List Iovec
  iov : List Iovec
  rw : UioRwflag
  resid : Nat
deriving DecidableEq

def copyin (mem : Memory) (buf user len : Nat) : Memory := memcpy mem buf user len

def copyout (mem : Memory) (user buf len : Nat) : Memory := memcpy mem user buf len

structure Moving where
  mem : Memory
  cp : Nat
  len : Nat
  uio : Uio

def uiomovePass (s : Moving) : Option (Pass Moving Moving) :=
  if s.len = 0 ∨ s.uio.resid = 0 then some (.leave s)
  else
    match s.uio.iov with
    | [] => some (.leave s)
    | v :: iov =>
      if v.len = 0 then some (.again { s with uio := { s.uio with past := s.uio.past ++ [v], iov } })
      else
        let cnt := min s.len v.len
        let mem := match s.uio.rw with
          | .read => copyout s.mem v.base s.cp cnt
          | .write => copyin s.mem s.cp v.base cnt
        some (.again { mem, cp := s.cp + cnt, len := s.len - cnt, uio := { s.uio with
          resid := wsub s.uio.resid cnt
          iov := ⟨v.base + cnt, v.len - cnt⟩ :: iov } })

def uiomove (fuel : Nat) (mem : Memory) (cp len : Nat) (uio : Uio) : Option (Memory × Uio) :=
  (loop uiomovePass fuel ⟨mem, cp, len, uio⟩).map fun s => (s.mem, s.uio)

def places (iov : List Iovec) : List Nat := iov.flatMap fun v => List.range' v.base v.len

def total (iov : List Iovec) : Nat := (iov.map Iovec.len).sum

structure Uio.Whole (uio : Uio) : Prop where
  sum : uio.resid = total uio.iov
  word : uio.resid < 2^32

/-- The two parts of the array after `n` more bytes. An entry that has become empty stays until the
    next byte is asked for. -/
def taken : Nat → List Iovec → List Iovec → List Iovec × List Iovec
  | _, past, [] => (past, [])
  | n, past, v :: iov =>
    if n = 0 then (past, v :: iov)
    else if n ≤ v.len then (past, ⟨v.base + n, v.len - n⟩ :: iov)
    else taken (n - v.len) (past ++ [⟨v.base + v.len, 0⟩]) iov

def Uio.advance (uio : Uio) (n : Nat) : Uio :=
  { uio with
    past := (taken n uio.past uio.iov).1, iov := (taken n uio.past uio.iov).2, resid := uio.resid - n }

def Uio.dst (uio : Uio) (cp n : Nat) : List Nat :=
  match uio.rw with
  | .read => (places uio.iov).take n
  | .write => List.range' cp n

def Uio.src (uio : Uio) (cp n : Nat) : List Nat :=
  match uio.rw with
  | .read => List.range' cp n
  | .write => (places uio.iov).take n

def Uio.image (uio : Uio) (mem : Memory) (cp n : Nat) : Memory := transfer mem (uio.dst cp n) (uio.src cp n)

def Apart (uio : Uio) (cp n : Nat) : Prop := ∀ a ∈ places uio.iov, ¬ (cp ≤ a ∧ a < cp + n)

theorem places_cons (v : Iovec) (iov : List Iovec) :
    places (v :: iov) = List.range' v.base v.len ++ places iov := rfl

theorem total_cons (v : Iovec) (iov : List Iovec) : total (v :: iov) = v.len + total iov := rfl

theorem places_length (iov : List Iovec) : (places iov).length = total iov := by
  induction iov with
  | nil => rfl
  | cons v iov ih => rw [places_cons, total_cons, List.length_append, List.length_range', ih]

theorem taken_zero (past iov : List Iovec) : taken 0 past iov = (past, iov) := by
  cases iov with
  | nil => rfl
  | cons v iov => rw [taken, if_pos rfl]

theorem taken_part {n : Nat} {past iov : List Iovec} {v : Iovec} (positive : n ≠ 0) (fits : n ≤ v.len) :
    taken n past (v :: iov) = (past, ⟨v.base + n, v.len - n⟩ :: iov) := by
  rw [taken, if_neg positive, if_pos fits]

theorem taken_beyond {n : Nat} {past iov : List Iovec} {v : Iovec} (beyond : v.len < n) :
    taken n past (v :: iov) = taken (n - v.len) (past ++ [⟨v.base + v.len, 0⟩]) iov := by
  rw [taken, if_neg (by omega), if_neg (by omega)]

theorem taken_add (k m : Nat) (past iov : List Iovec) :
    taken (k + m) past iov = taken m (taken k past iov).1 (taken k past iov).2 := by
  induction iov generalizing k past with
  | nil => rfl
  | cons v iov ih =>
    by_cases none : k = 0
    · rw [none, taken_zero, Nat.zero_add]
    by_cases fits : k ≤ v.len
    · rw [taken_part none fits]
      by_cases last : m = 0
      · rw [last, taken_zero, Nat.add_zero, taken_part none fits]
      by_cases more : k + m ≤ v.len
      · have rest : m ≤ v.len - k := by omega
        rw [taken_part (by omega) more, taken_part last rest, Nat.add_assoc, Nat.sub_sub]
      · have beyond : v.len - k < m := by omega
        rw [taken_beyond (by omega), @taken_beyond m past iov ⟨v.base + k, v.len - k⟩ beyond]
        have place : v.base + k + (v.len - k) = v.base + v.len := by omega
        have left : m - (v.len - k) = k + m - v.len := by omega
        rw [place, left]
    · rw [taken_beyond (by omega), @taken_beyond k past iov v (by omega), ← ih]
      congr 1
      omega

theorem places_taken {n : Nat} {past iov : List Iovec} (room : n ≤ total iov) :
    places (taken n past iov).2 = (places iov).drop n := by
  induction iov generalizing n past with
  | nil => exact (List.drop_nil).symm
  | cons v iov ih =>
    rw [total_cons] at room
    rw [places_cons]
    by_cases none : n = 0
    · rw [none, taken_zero, List.drop_zero, places_cons]
    by_cases fits : n ≤ v.len
    · rw [taken_part none fits, places_cons, List.drop_append_of_le_length
        (by rw [List.length_range']; exact fits),
        List.drop_range', Nat.mul_one]
    · have first : (List.range' v.base v.len).drop n = [] :=
        List.drop_eq_nil_of_le (by rw [List.length_range']; omega)
      rw [taken_beyond (by omega), ih (by omega), List.drop_append, List.length_range', first,
        List.nil_append]

theorem taken_length (n : Nat) (past iov : List Iovec) : (taken n past iov).2.length ≤ iov.length := by
  induction iov generalizing n past with
  | nil => exact Nat.le_refl 0
  | cons v iov ih =>
    rw [taken]
    split
    · exact Nat.le_refl _
    split
    · exact Nat.le_refl _
    · exact Nat.le_succ_of_le (ih _ _)

theorem Uio.advance_zero (uio : Uio) : uio.advance 0 = uio := by
  rw [Uio.advance, taken_zero]
  rfl

theorem Uio.advance_add (uio : Uio) (k m : Nat) : (uio.advance k).advance m = uio.advance (k + m) := by
  simp only [Uio.advance, taken_add k m, Nat.sub_sub]

theorem Uio.image_zero (uio : Uio) (mem : Memory) (cp : Nat) : uio.image mem cp 0 = mem := by
  unfold Uio.image Uio.dst Uio.src
  cases uio.rw <;> rfl

section Advance

variable {uio : Uio} {cp k m n : Nat} {mem : Memory}

theorem Uio.Whole.places_advance (whole : uio.Whole) (bound : n ≤ uio.resid) :
    places (uio.advance n).iov = (places uio.iov).drop n := places_taken (by rw [← whole.sum]; exact bound)

theorem Uio.Whole.advance (whole : uio.Whole) (bound : n ≤ uio.resid) : (uio.advance n).Whole where
  sum := by
    rw [← places_length, whole.places_advance bound, List.length_drop, places_length, ← whole.sum]
    rfl
  word := by
    have word := whole.word
    have left : (uio.advance n).resid = uio.resid - n := rfl
    omega

theorem Uio.Whole.sides_length (whole : uio.Whole) (bound : n ≤ uio.resid) :
    (uio.dst cp n).length = n ∧ (uio.src cp n).length = n := by
  have room : ((places uio.iov).take n).length = n := by
    rw [List.length_take, places_length, ← whole.sum]
    omega
  unfold Uio.dst Uio.src
  cases uio.rw with
  | read => exact ⟨room, List.length_range'⟩
  | write => exact ⟨List.length_range', room⟩

theorem Uio.Whole.sides_add (whole : uio.Whole) (bound : k ≤ uio.resid) :
    uio.dst cp (k + m) = uio.dst cp k ++ (uio.advance k).dst (cp + k) m ∧
      uio.src cp (k + m) = uio.src cp k ++ (uio.advance k).src (cp + k) m := by
  have same : (uio.advance k).rw = uio.rw := rfl
  unfold Uio.dst Uio.src
  rw [same, whole.places_advance bound, List.take_add, ← List.range'_append_1]
  cases uio.rw <;> exact ⟨rfl, rfl⟩

theorem Apart.sides (apart : Apart uio cp (k + m)) (whole : uio.Whole) (bound : k ≤ uio.resid) :
    ∀ a ∈ (uio.advance k).src (cp + k) m, a ∉ uio.dst cp k := by
  have same : (uio.advance k).rw = uio.rw := rfl
  unfold Uio.dst Uio.src
  rw [same, whole.places_advance bound]
  cases uio.rw with
  | read =>
    intro a buffer iovecs
    rw [List.mem_range'_1] at buffer
    exact apart a (List.mem_of_mem_take iovecs) (by omega)
  | write =>
    intro a iovecs buffer
    rw [List.mem_range'_1] at buffer
    exact apart a (List.mem_of_mem_drop (List.mem_of_mem_take iovecs)) (by omega)

theorem Apart.first (apart : Apart uio cp (k + m)) : Apart uio cp k :=
  fun a member inside => apart a member (by omega)

theorem Apart.none (uio : Uio) (cp : Nat) : Apart uio cp 0 := fun _ _ inside => absurd inside (by omega)

theorem Apart.rest (apart : Apart uio cp (k + m)) (whole : uio.Whole) (bound : k ≤ uio.resid) :
    Apart (uio.advance k) (cp + k) m := by
  intro a member inside
  rw [whole.places_advance bound] at member
  exact apart a (List.mem_of_mem_drop member) (by omega)

theorem Apart.image_add (apart : Apart uio cp (k + m)) (whole : uio.Whole) (bound : k ≤ uio.resid) :
    uio.image mem cp (k + m) = (uio.advance k).image (uio.image mem cp k) (cp + k) m := by
  obtain ⟨dst, src⟩ := @Uio.Whole.sides_add uio cp k m whole bound
  obtain ⟨dst_length, src_length⟩ := @Uio.Whole.sides_length uio cp k whole bound
  unfold Uio.image
  rw [dst, src]
  exact transfer_append mem (by rw [dst_length, src_length]) (apart.sides whole bound)

end Advance

theorem bytes_eq_map (mem : Memory) (a n : Nat) : bytes mem a n = (List.range' a n).map mem := by
  induction n generalizing a with
  | zero => rfl
  | succ n ih => rw [bytes, ih, List.range'_succ, List.map_cons]

theorem put_eq_write (mem : Memory) (a : Nat) (xs : List UInt8) :
    put mem (List.range' a xs.length) xs = write mem a xs := by
  induction xs generalizing mem a with
  | nil => exact (write_nil mem a).symm
  | cons x xs ih =>
    have one : Function.update mem a x = write mem a [x] := by
      funext b
      simp only [write, List.length_singleton, Function.update_apply]
      by_cases here : b = a
      · subst here
        simp
      · rw [if_neg here, if_neg (by omega)]
    have both := write_append mem a [x] xs
    rw [List.length_cons, List.range'_succ, put, ih, one]
    exact both

theorem memcpy_eq_transfer (mem : Memory) (d s n : Nat) :
    memcpy mem d s n = transfer mem (List.range' d n) (List.range' s n) := by
  have stored := put_eq_write mem d (bytes mem s n)
  rw [bytes_length] at stored
  rw [memcpy_eq, bcopy_eq_write, ← stored, transfer, bytes_eq_map]

def Moving.left (s : Moving) : Nat := min s.len s.uio.resid

def Moving.variant (s : Moving) : Nat := s.uio.resid + s.uio.iov.length

structure Goes (s s' : Moving) : Prop where
  whole : s'.uio.Whole
  ends : s'.uio.advance s'.left = s.uio.advance s.left
  image : Apart s.uio s.cp s.left → Apart s'.uio s'.cp s'.left ∧
    s'.uio.image s'.mem s'.cp s'.left = s.uio.image s.mem s.cp s.left
  others : ∀ a ∉ s.uio.dst s.cp s.left, a ∉ s'.uio.dst s'.cp s'.left ∧ s'.mem a = s.mem a

theorem copy_image {uio : Uio} {v : Iovec} {iov : List Iovec} {mem : Memory} {cp cnt : Nat}
    (here : uio.iov = v :: iov) (fits : cnt ≤ v.len) :
    (match uio.rw with
      | .read => copyout mem v.base cp cnt
      | .write => copyin mem cp v.base cnt) = uio.image mem cp cnt := by
  have first : (places uio.iov).take cnt = List.range' v.base cnt := by
    rw [here, places_cons, List.take_append_of_le_length (by rw [List.length_range']; exact fits), 
      List.take_range'_of_length_ge fits]
  unfold Uio.image Uio.dst Uio.src
  rw [first]
  cases uio.rw with
  | read => exact memcpy_eq_transfer mem v.base cp cnt
  | write => exact memcpy_eq_transfer mem cp v.base cnt

section Passes

variable {mem : Memory} {cp len : Nat} {uio : Uio}

theorem Goes.skip {v : Iovec} {iov : List Iovec} (whole : uio.Whole) (here : uio.iov = v :: iov)
    (empty : v.len = 0) (more : min len uio.resid ≠ 0) :
    Goes ⟨mem, cp, len, uio⟩ ⟨mem, cp, len, { uio with past := uio.past ++ [v], iov }⟩ := by
  have same : places uio.iov = places iov := by
    rw [here, places_cons, empty]
    rfl
  have dst : ∀ n, ({ uio with past := uio.past ++ [v], iov } : Uio).dst cp n = uio.dst cp n := by
    intro n
    simp only [Uio.dst, same]
  have src : ∀ n, ({ uio with past := uio.past ++ [v], iov } : Uio).src cp n = uio.src cp n := by
    intro n
    simp only [Uio.src, same]
  constructor
  · refine ⟨?_, whole.word⟩
    have sum := whole.sum
    rwa [here, total_cons, empty, Nat.zero_add] at sum
  · have entry : (⟨v.base + v.len, 0⟩ : Iovec) = v := by rw [empty, Nat.add_zero, ← empty]
    have next : taken (min len uio.resid) uio.past (v :: iov) =
        taken (min len uio.resid) (uio.past ++ [v]) iov := by
      rw [taken_beyond (by omega), entry, empty, Nat.sub_zero]
    simp only [Uio.advance, Moving.left, here, next]
  · intro apart
    refine ⟨?_, ?_⟩
    · rwa [Apart, same] at apart
    · simp only [Uio.image, dst, src, Moving.left]
  · intro a outside
    refine ⟨?_, rfl⟩
    simp only [dst, Moving.left]
    exact outside

theorem Goes.copy {k : Nat} (whole : uio.Whole) (bound : k ≤ min len uio.resid) :
    Goes ⟨mem, cp, len, uio⟩ ⟨uio.image mem cp k, cp + k, len - k, uio.advance k⟩ := by
  have room : k ≤ uio.resid := by omega
  have left : min len uio.resid = k + min (len - k) (uio.resid - k) := by omega
  constructor
  · exact whole.advance room
  · show (uio.advance k).advance (min (len - k) (uio.resid - k)) = uio.advance (min len uio.resid)
    rw [Uio.advance_add, left]
  · intro apart
    simp only [Moving.left] at apart
    rw [left] at apart
    refine ⟨apart.rest whole room, ?_⟩
    show (uio.advance k).image (uio.image mem cp k) (cp + k) (min (len - k) (uio.resid - k)) =
      uio.image mem cp (min len uio.resid)
    rw [left, apart.image_add whole room]
  · intro a outside
    have parts := (@Uio.Whole.sides_add uio cp k (min (len - k) (uio.resid - k)) whole room).1
    simp only [Moving.left] at outside
    rw [left, parts] at outside
    obtain ⟨first, rest⟩ := not_or.mp (List.mem_append.not.mp outside)
    exact ⟨rest, transfer_outside mem _ first⟩

theorem Goes.trans {s s' s'' : Moving} (first : Goes s s') (second : Goes s' s'') : Goes s s'' where
  whole := second.whole
  ends := second.ends.trans first.ends
  image := fun apart => by
    obtain ⟨apart', same⟩ := first.image apart
    obtain ⟨apart'', same'⟩ := second.image apart'
    exact ⟨apart'', same'.trans same⟩
  others := fun a outside => by
    obtain ⟨outside', same⟩ := first.others a outside
    obtain ⟨outside'', same'⟩ := second.others a outside'
    exact ⟨outside'', same'.trans same⟩

theorem uiomovePass_step (whole : uio.Whole) :
    (min len uio.resid = 0 ∧ uiomovePass ⟨mem, cp, len, uio⟩ = some (.leave ⟨mem, cp, len, uio⟩)) ∨
      ∃ s', uiomovePass ⟨mem, cp, len, uio⟩ = some (.again s') ∧ s'.variant < uio.resid + uio.iov.length ∧
        Goes ⟨mem, cp, len, uio⟩ s' := by
  have sum := whole.sum
  have word := whole.word
  by_cases done : len = 0 ∨ uio.resid = 0
  · exact .inl ⟨by omega, if_pos done⟩
  right
  cases here : uio.iov with
  | nil =>
    rw [here] at sum
    exact absurd (.inr sum) done
  | cons v iov =>
    rw [here, total_cons] at sum
    by_cases empty : v.len = 0
    · refine ⟨_, ?_, ?_, Goes.skip whole here empty (by omega)⟩
      · simp only [uiomovePass, if_neg done, here, if_pos empty]
      · simp only [Moving.variant, List.length_cons]
        omega
    · have positive : min len v.len ≠ 0 := by omega
      have fits : min len v.len ≤ v.len := Nat.min_le_right _ _
      have next : uio.advance (min len v.len) = { uio with
          resid := wsub uio.resid (min len v.len)
          iov := ⟨v.base + min len v.len, v.len - min len v.len⟩ :: iov } := by
        rw [Uio.advance, here, taken_part positive fits, wsub_of_le (by omega) word]
      refine ⟨_, ?_, ?_, @Goes.copy mem cp len uio (min len v.len) whole (by omega)⟩
      · have copied := @copy_image uio v iov mem cp (min len v.len) here fits
        simp only [uiomovePass, if_neg done, here, if_neg empty, ← copied, next]
      · rw [next, wsub_of_le (by omega) word]
        simp only [Moving.variant, List.length_cons]
        omega

structure Moved (mem : Memory) (cp n : Nat) (uio : Uio) (mem' : Memory) (uio' : Uio) : Prop where
  whole : uio'.Whole
  advanced : uio' = uio.advance n
  stored : Apart uio cp n → mem' = uio.image mem cp n
  others : ∀ a ∉ uio.dst cp n, mem' a = mem a

theorem uiomove_moved (mem : Memory) (cp len : Nat) {uio : Uio} {fuel : Nat} (whole : uio.Whole)
    (enough : uio.resid + uio.iov.length < fuel) :
    ∃ mem' uio', uiomove fuel mem cp len uio = some (mem', uio') ∧
      Moved mem cp (min len uio.resid) uio mem' uio' := by
  have start : Goes ⟨mem, cp, len, uio⟩ ⟨mem, cp, len, uio⟩ :=
    ⟨whole, rfl, fun apart => ⟨apart, rfl⟩, fun _ outside => ⟨outside, rfl⟩⟩
  have pass : ∀ s, Goes ⟨mem, cp, len, uio⟩ s →
      (∃ next, uiomovePass s = some (.again next) ∧ Goes ⟨mem, cp, len, uio⟩ next ∧
        next.variant < s.variant) ∨
        ∃ r, uiomovePass s = some (.leave r) ∧ Moved mem cp (min len uio.resid) uio r.mem r.uio := by
    intro s goes
    rcases uiomovePass_step goes.whole with ⟨none, leaves⟩ | ⟨s', again, less, goes'⟩
    · refine .inr ⟨s, leaves, goes.whole, ?_, ?_, fun a outside => (goes.others a outside).2⟩
      · have ends := goes.ends
        rw [Moving.left, none, Uio.advance_zero] at ends
        exact ends
      · intro apart
        have same := (goes.image apart).2
        rw [Moving.left, none, Uio.image_zero] at same
        exact same
    · exact .inl ⟨s', again, goes.trans goes', less⟩
  obtain ⟨s, left, moved⟩ := loop_variant _ _ _ pass fuel ⟨mem, cp, len, uio⟩ start enough
  refine ⟨s.mem, s.uio, ?_, moved⟩
  rw [uiomove, left]
  rfl

structure Transferred (mem : Memory) (cp n : Nat) (uio : Uio) (mem' : Memory) (uio' : Uio) : Prop where
  resid : uio'.resid + n = uio.resid
  sum : uio'.resid = total uio'.iov
  places : places uio'.iov = (places uio.iov).drop n
  stored : Apart uio cp n → mem' = transfer mem (uio.dst cp n) (uio.src cp n)
  read : Apart uio cp n → (uio.dst cp n).Nodup → (uio.dst cp n).map mem' = (uio.src cp n).map mem
  others : ∀ a ∉ uio.dst cp n, mem' a = mem a

theorem Moved.transferred {n : Nat} {mem' : Memory} {uio' : Uio}
    (moved : Moved mem cp n uio mem' uio') (whole : uio.Whole)
    (bound : n ≤ uio.resid) : Transferred mem cp n uio mem' uio' where
  resid := by
    rw [moved.advanced]
    exact Nat.sub_add_cancel bound
  sum := moved.whole.sum
  places := by rw [moved.advanced, whole.places_advance bound]
  stored := moved.stored
  read := fun apart differ => by
    obtain ⟨dst_length, src_length⟩ := @Uio.Whole.sides_length uio cp n whole bound
    rw [moved.stored apart]
    exact transfer_read mem differ (by rw [dst_length, src_length])
  others := moved.others

theorem uiomove_composes (mem : Memory) (cp len1 len2 : Nat) {fuel : Nat} (whole : uio.Whole)
    (enough : uio.resid + uio.iov.length < fuel) :
    ∃ mem1 uio1 mem2 mem' uio', uiomove fuel mem cp len1 uio = some (mem1, uio1) ∧
      uiomove fuel mem1 (cp + len1) len2 uio1 = some (mem2, uio') ∧
      uiomove fuel mem cp (len1 + len2) uio = some (mem', uio') ∧
      (Apart uio cp (min (len1 + len2) uio.resid) → mem' = mem2) := by
  obtain ⟨mem1, uio1, first, moved1⟩ := uiomove_moved mem cp len1 whole enough
  have resid : uio1.resid = uio.resid - min len1 uio.resid := by rw [moved1.advanced]; rfl
  have shorter : uio1.iov.length ≤ uio.iov.length := by
    rw [moved1.advanced]
    exact taken_length _ _ _
  obtain ⟨mem2, uio2, second, moved2⟩ := uiomove_moved mem1 (cp + len1) len2 moved1.whole
    (show uio1.resid + uio1.iov.length < fuel by omega)
  obtain ⟨mem', uio', both, moved⟩ := uiomove_moved mem cp (len1 + len2) whole enough
  have parts : min (len1 + len2) uio.resid = min len1 uio.resid + min len2 uio1.resid := by omega
  have same : uio' = uio2 := by
    rw [moved.advanced, moved2.advanced, moved1.advanced, Uio.advance_add, ← moved1.advanced, parts]
  refine ⟨mem1, uio1, mem2, mem', uio', first, same ▸ second, both, fun apart => ?_⟩
  have stored := moved.stored apart
  rw [parts] at apart stored
  rw [stored, apart.image_add whole (Nat.min_le_right _ _), ← moved1.advanced, ← moved1.stored apart.first]
  by_cases reached : len1 ≤ uio.resid
  · -- The second call goes on where the first one has stopped.
    have k : min len1 uio.resid = len1 := Nat.min_eq_left reached
    rw [k] at apart
    have rest := apart.rest whole reached
    have advanced := moved1.advanced
    rw [k] at advanced
    rw [← advanced] at rest
    rw [k, moved2.stored rest]
  · have none : min len2 uio1.resid = 0 := by omega
    rw [none] at moved2 ⊢
    rw [Uio.image_zero, moved2.stored (Apart.none _ _), Uio.image_zero]

theorem uiomove_transfers (whole : uio.Whole) {fuel : Nat} (enough : uio.resid + uio.iov.length < fuel) :
    (∀ mem cp len, ∃ mem' uio', uiomove fuel mem cp len uio = some (mem', uio') ∧
      Transferred mem cp (min len uio.resid) uio mem' uio') ∧
    ∀ mem cp len1 len2, ∃ mem1 uio1 mem2 mem' uio', uiomove fuel mem cp len1 uio = some (mem1, uio1) ∧
      uiomove fuel mem1 (cp + len1) len2 uio1 = some (mem2, uio') ∧
      uiomove fuel mem cp (len1 + len2) uio = some (mem', uio') ∧
      (Apart uio cp (min (len1 + len2) uio.resid) → mem' = mem2) := by
  refine ⟨fun mem cp len => ?_, fun mem cp len1 len2 => uiomove_composes mem cp len1 len2 whole enough⟩
  obtain ⟨mem', uio', returned, moved⟩ := uiomove_moved mem cp len whole enough
  exact ⟨mem', uio', returned, moved.transferred whole (Nat.min_le_right _ _)⟩

end Passes

def scattered : Uio := ⟨[], [⟨40, 0⟩, ⟨20, 3⟩, ⟨50, 0⟩, ⟨30, 2⟩], .read, 5⟩

theorem scattered_transfers :
    ∃ mem' uio', uiomove 10 UInt8.ofNat 0 4 scattered = some (mem', uio') ∧
      [20, 21, 22, 30, 31].map mem' = [0, 1, 2, 3, 31] ∧
      Transferred UInt8.ofNat 0 4 scattered mem' uio' := by
  obtain ⟨mem', uio', returned, transferred⟩ :=
    (@uiomove_transfers scattered ⟨rfl, by decide⟩ 10 (by decide)).1 UInt8.ofNat 0 4
  refine ⟨mem', uio', returned, ?_, transferred⟩
  have values : (uiomove 10 UInt8.ofNat 0 4 scattered).map (fun r => [20, 21, 22, 30, 31].map r.1) =
      some [0, 1, 2, 3, 31] := by
    decide +kernel
  rw [returned] at values
  exact Option.some.inj values

def overlapping : Uio := ⟨[], [⟨1, 2⟩], .read, 2⟩

/-- Two bytes at once, and one after the other. -/
theorem overlapping_differs :
    overlapping.Whole ∧ (uiomove 4 UInt8.ofNat 0 2 overlapping).map (fun r => r.1 2) = some 1 ∧
      ((uiomove 4 UInt8.ofNat 0 1 overlapping).bind fun r => (uiomove 4 r.1 1 1 r.2).map fun r =>
        r.1 2) = some 0 :=
  ⟨⟨rfl, by decide⟩, by decide +kernel, by decide +kernel⟩

theorem uiomoveLoop_lens (mem : Memory) (cp len : Nat) (past iov : List Iovec) (moved : List UInt8)
    (word : total iov < 2^32) :
    Sock.uiomoveLoop mem (iov.map Iovec.len) cp len (total iov) moved =
      ⟨(taken (min len (total iov)) past iov).2.map Iovec.len, total iov - min len (total iov),
        moved ++ bytes mem cp (min len (total iov))⟩ := by
  induction iov generalizing cp len past moved with
  | nil => simp [Sock.uiomoveLoop, taken, total, bytes]
  | cons v iov ih =>
    rw [total_cons] at word ⊢
    rw [List.map_cons, Sock.uiomoveLoop]
    by_cases done : len = 0 ∨ v.len + total iov = 0
    · have none : min len (v.len + total iov) = 0 := by omega
      rw [if_pos done, none, taken_zero, bytes, List.append_nil]
      rfl
    rw [if_neg done]
    dsimp only
    rw [wsub_of_le (by omega) word]
    by_cases last : len - min len v.len = 0 ∨ v.len + total iov - min len v.len = 0
    · have here : min len (v.len + total iov) = min len v.len := by omega
      rw [if_pos last, here, taken_part (by omega) (Nat.min_le_right _ _)]
      rfl
    · have all : min len v.len = v.len := by omega
      have parts : min len (v.len + total iov) = v.len + min (len - v.len) (total iov) := by omega
      rw [if_neg last, all, Nat.add_sub_cancel_left,
        @ih (cp + v.len) (len - v.len) (past ++ [⟨v.base + v.len, 0⟩]) _ (by omega),
        parts, taken_beyond (by omega), Nat.add_sub_cancel_left, bytes_add, List.append_assoc]
      congr 1
      omega

end Embryo.Kernel
