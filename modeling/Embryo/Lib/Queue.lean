import Embryo.Machine.Fifo
import Embryo.Machine.Runs

namespace Embryo.Lib

open Embryo.Machine

structure Queue where
  first : Nat
  count : Nat
  limit : Nat
  units : Nat → UInt8
  ring : ∃ k, limit + 1 = 2 ^ k
  room : count ≤ limit

namespace Queue

/-- A number that shares no bit with its predecessor is a power of two, and for 0 the limit is all
    of an `unsigned short`. -/
theorem ring_of_and {n : UInt16} (power : n &&& (n - 1) = 0) : ∃ k, (n - 1).toNat + 1 = 2 ^ k := by
  by_cases zero : n = 0
  · exact ⟨16, by rw [zero]; rfl⟩
  have positive : n.toNat ≠ 0 := fun same => zero (UInt16.toNat_inj.mp same)
  have bound := n.toNat_lt
  have before : (n - 1).toNat = n.toNat - 1 := by
    rw [UInt16.toNat_sub]
    change (2 ^ 16 - 1 + n.toNat) % 2 ^ 16 = n.toNat - 1
    omega
  have apart : n.toNat &&& (n.toNat - 1) = 0 := by
    rw [← before, ← UInt16.toNat_and, power]
    rfl
  obtain ⟨k, size⟩ := (Nat.and_sub_one_eq_zero_iff_isPowerOfTwo positive).mp apart
  exact ⟨k, by rw [before, Nat.sub_add_cancel (Nat.pos_of_ne_zero positive), size]⟩

def isempty (q : Queue) : Bool := q.count == 0

def isfull (q : Queue) : Bool := q.count == q.limit

def used (q : Queue) : Nat := q.count

def space (q : Queue) : Nat := q.limit - q.count

def create (n : UInt16) (block : Option (Nat → UInt8)) : Option Queue :=
  if power : n &&& (n - 1) = 0 then
    block.map fun units => ⟨0, 0, (n - 1).toNat, units, ring_of_and power, Nat.zero_le _⟩
  else none

/-- `Qput`, which waits for ever when the queue is full. -/
def put (q : Queue) (u : UInt8) : Option Queue :=
  if full : q.count = q.limit then none
  else some { q with
    units := Function.update q.units ((q.first + q.count) &&& q.limit) u
    count := q.count + 1
    room := Nat.lt_of_le_of_ne q.room full }

/-- `Qget`, which waits for ever when the queue is empty. -/
def get (q : Queue) : Option (UInt8 × Queue) :=
  if q.count = 0 then none
  else some (q.units (q.first &&& q.limit), { q with
    first := (q.first + 1) &&& q.limit
    count := q.count - 1
    room := (Nat.sub_le q.count 1).trans q.room })

def read (q : Queue) (i : Nat) : UInt8 := if i ≥ q.used then 0 else q.units ((q.first + i) &&& q.limit)

def step (q : Queue) : Exchange UInt8 → Option (Option UInt8 × Queue)
  | .put u => (q.put u).map fun q => (none, q)
  | .get => q.get.map fun r => (some r.1, r.2)

def contents (q : Queue) : List UInt8 := window q.units (q.limit + 1) q.first q.count

theorem and_limit (q : Queue) (n : Nat) : n &&& q.limit = n % (q.limit + 1) := by
  obtain ⟨k, ring⟩ := q.ring
  rw [ring, ← Nat.and_two_pow_sub_one_eq_mod, ← ring, Nat.add_sub_cancel]

theorem contents_length (q : Queue) : q.contents.length = q.count := window_length _ _ _ _

theorem contents_eq_nil {q : Queue} : q.contents = [] ↔ q.count = 0 := by
  rw [← List.length_eq_zero_iff, contents_length]

theorem put_contents (q : Queue) (u : UInt8) (room : q.count < q.limit) :
    ∃ q', q.put u = some q' ∧ q'.contents = q.contents ++ [u] ∧ q'.count = q.count + 1 ∧
      q'.limit = q.limit := by
  refine ⟨_, dif_neg (Nat.ne_of_lt room), ?_, rfl, rfl⟩
  simp only [contents, and_limit]
  exact window_put _ _ _ _ u (by omega)

theorem get_contents (q : Queue) (some' : q.count ≠ 0) :
    ∃ u q', q.get = some (u, q') ∧ q.contents = u :: q'.contents ∧ q'.limit = q.limit := by
  refine ⟨_, _, if_neg some', ?_, rfl⟩
  obtain ⟨count, counted⟩ := Nat.exists_eq_succ_of_ne_zero some'
  simp only [contents, and_limit, counted, Nat.succ_sub_one]
  exact window_get _ _ _ _

theorem read_contents (q : Queue) (i : Nat) : q.read i = q.contents.getD i 0 := by
  unfold read used
  by_cases beyond : i ≥ q.count
  · rw [if_pos beyond, List.getD_eq_default _ _ (by rw [contents_length]; exact beyond)]
  · rw [if_neg beyond, and_limit, contents, window_getD _ _ _ _ _ (by omega)]

/-- A queue of `n` units as a list: what its macros and `Qread` say of it, and that its fields are
    below `n`, as is every index into its units. `Qput` uses the one at `count`, `Qget` that at 0
    and `Qread` those between. -/
structure Shows (n : Nat) (q : Queue) (l : List UInt8) : Prop where
  size : q.limit + 1 = n
  contents : q.contents = l
  used : q.used = l.length
  space : q.space = n - 1 - l.length
  isempty : q.isempty = true ↔ l = []
  isfull : q.isfull = true ↔ l.length = n - 1
  read : ∀ i, q.read i = l.getD i 0
  fields : q.first < n ∧ q.count < n
  index : ∀ i, (q.first + i) &&& q.limit < n

theorem shows_contents {n : Nat} {q : Queue} (size : q.limit + 1 = n) (first : q.first < n) :
    Shows n q q.contents where
  size := size
  contents := rfl
  used := q.contents_length.symm
  space := by rw [contents_length, ← size, Nat.add_sub_cancel]; rfl
  isempty := by rw [isempty, beq_iff_eq, contents_eq_nil]
  isfull := by rw [isfull, beq_iff_eq, contents_length, ← size, Nat.add_sub_cancel]
  read := q.read_contents
  fields := ⟨first, by have room := q.room; omega⟩
  index := fun i => Nat.lt_of_le_of_lt Nat.and_le_right (by omega)

theorem step_shows {n : Nat} {q : Queue} {l : List UInt8} (i : Exchange UInt8) (shows : Shows n q l) :
    Option.Rel (Answers (Shows n)) (q.step i) (fifo (n - 1) l i) := by
  obtain rfl := shows.contents
  have size := shows.size
  have count := q.contents_length
  have masked : (q.first + 1) &&& q.limit < n := shows.index 1
  cases i with
  | put u =>
    by_cases full : q.count = q.limit
    · rw [step, put, dif_pos full, fifo, if_neg (by omega)]
      exact .none
    · obtain ⟨q', stored, contents, -, limit⟩ := q.put_contents u (Nat.lt_of_le_of_ne q.room full)
      have first : q'.first = q.first := by
        rw [put, dif_neg full] at stored
        cases stored
        rfl
      rw [step, stored, fifo, if_pos (by have room := q.room; omega), ← contents]
      exact .some ⟨rfl, shows_contents (limit ▸ size) (first ▸ shows.fields.1)⟩
  | get =>
    by_cases none : q.count = 0
    · rw [step, get, if_pos none, contents_eq_nil.mpr none]
      exact .none
    · obtain ⟨u, q', taken, contents, limit⟩ := q.get_contents none
      have first : q'.first = (q.first + 1) &&& q.limit := by
        rw [get, if_neg none] at taken
        cases taken
        rfl
      rw [step, taken, contents]
      exact .some ⟨rfl, shows_contents (limit ▸ size) (first ▸ masked)⟩

/-- A queue of any size that `Qcreate` takes, from 2 on, goes through any puts and gets as a FIFO of
    one unit less does: it takes and gives the same units as long as the FIFO has room and units,
    and shows the same ones in the end. -/
theorem queue_is_fifo (n : UInt16) (power : ∃ k, n.toNat = 2 ^ k) (least : 2 ≤ n.toNat) (units : Nat → UInt8)
    (run : List (Exchange UInt8)) :
    ∃ q, create n (some units) = some q ∧
      Option.Rel (Answers (Shows n.toNat)) (exchange step q run) (exchange (fifo (n.toNat - 1)) [] run) := by
  obtain ⟨k, size⟩ := power
  have bound := n.toNat_lt
  have before : (n - 1).toNat = n.toNat - 1 := by
    rw [UInt16.toNat_sub_of_le _ _ (by rw [UInt16.le_iff_toNat_le]; exact Nat.le_of_succ_le least)]
    rfl
  have apart : n &&& (n - 1) = 0 := by
    apply UInt16.toNat_inj.mp
    rw [UInt16.toNat_and, before]
    exact (Nat.and_sub_one_eq_zero_iff_isPowerOfTwo (by omega)).mpr ⟨k, size⟩
  refine ⟨_, dif_pos apart, ?_⟩
  apply exchange_refines fun q l i shows => step_shows i shows
  have size' : (n - 1).toNat + 1 = n.toNat := by omega
  exact shows_contents size' (Nat.lt_of_lt_of_le Nat.zero_lt_two least)

theorem two_units : ∃ q, create 2 (some fun _ => 0) = some q ∧
    Option.Rel (Answers (Shows 2)) (exchange step q [.put 7, .get, .put 9])
    (some ([none, some 7, none], [9])) :=
  queue_is_fifo 2 ⟨1, rfl⟩ (by decide) (fun _ => 0) [.put 7, .get, .put 9]

end Queue

end Embryo.Lib
