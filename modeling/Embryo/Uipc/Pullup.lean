import Embryo.Uipc.Write

namespace Embryo.Uipc

open Embryo.Machine
open Embryo.Kmem (Arena)

def Mbuf.extent (m : Mbuf) : Region := ⟨m.data, m.len⟩

def Mbuf.tail (m : Mbuf) : Nat := m.data + m.len

def behind (first : Mbuf) (rest : Chain) (count : Nat) : Chain :=
  if count < first.len then { first with len := first.len - count, data := first.data + count } :: rest
  else rest

structure Moving (A : Arena) (others : List Mbuf) (s : Pulling) (amount : Nat) : Prop where
  wf : Wf A s.pool (s.m :: (s.n ++ others))
  fit : s.m.Fit
  fits : ∀ e ∈ s.n, e.Fit
  room : s.m.tail + min amount (total s.n) ≤ s.m.room.stop

/-- What one pass does: it moves `count` bytes, and frees the mbuf they were in when it is empty. -/
structure Pulled (s : Pulling) (first : Mbuf) (rest : Chain) (others : List Mbuf) (count : Nat)
    (s' : Pulling) : Prop where
  m : s'.m = { s.m with len := s.m.len + count }
  n : s'.n = behind first rest count
  len : s'.len = wsub s.len count
  space : s'.space = wsub s.space count
  taken : s'.pool.taken = s.pool.taken
  freed : s'.pool.freed = (if count < first.len then [] else [first.addr]) ++ s.pool.freed
  mem : ∀ e ∈ s'.m :: (s'.n ++ others), e.Fit →
    bytes s'.pool.mem e.data e.len = bytes (bcopy s.pool.mem first.data s.m.tail count) e.data e.len

variable {A : Arena} {P : Pool} {live others : List Mbuf} {s s' : Pulling} {first : Mbuf} {rest : Chain}

theorem Wf.adjust_second {m first first' : Mbuf} (wf : Wf A P (m :: first :: live))
    (addr : first'.addr = first.addr) (type : first'.type = first.type)
    (flag : first'.flags.ext = first.flags.ext) (ext : first.flags.ext = true → first'.ext = first.ext) :
    Wf A P (m :: first' :: live) :=
  ((wf.perm (List.Perm.swap first m live)).adjust addr type flag ext).perm (List.Perm.swap m first' live)

theorem total_behind {count : Nat} (bound : count ≤ first.len) :
    total (behind first rest count) = total (first :: rest) - count := by
  unfold behind
  split
  · simp only [total_cons]
    omega
  · rw [total_cons]
    omega

theorem fit_behind {count : Nat} (fits : ∀ e ∈ first :: rest, e.Fit) :
    ∀ e ∈ behind first rest count, e.Fit := by
  intro e member
  unfold behind at member
  split at member
  · rcases List.mem_cons.mp member with rfl | member
    · have := fits first List.mem_cons_self
      show first.room.addr ≤ first.data + count ∧ first.data + count + (first.len - count) ≤ first.room.stop
      simp only [Mbuf.Fit] at this
      omega
    · exact fits e (List.mem_cons_of_mem _ member)
  · exact fits e (List.mem_cons_of_mem _ member)

theorem pull_part {Q : Pool} {count : Nat} (filled : s.pool.fill s.m first.data s.m.tail count = some Q)
    (part : count < first.len) :
    pull A s first rest count = some ⟨Q, { s.m with len := wrap (s.m.len + count) },
      behind first rest count, wsub s.len count, wsub s.space count⟩ := by
  have left : first.len - count ≠ 0 := by omega
  rw [Mbuf.tail] at filled
  simp only [pull, filled, left, behind, part, ne_eq, not_false_eq_true, if_true]

theorem pull_whole {Q Q' : Pool} {count : Nat} (filled : s.pool.fill s.m first.data s.m.tail count = some Q)
    (whole : ¬ count < first.len) (freed : mbufFree A Q { first with len := first.len - count } = some Q') :
    pull A s first rest count = some ⟨Q', { s.m with len := wrap (s.m.len + count) },
      behind first rest count, wsub s.len count, wsub s.space count⟩ := by
  have left : first.len - count = 0 := by omega
  rw [Mbuf.tail] at filled
  rw [left] at freed
  simp only [pull, filled, behind, whole, left, ne_eq, not_true_eq_false, if_false, freed]

theorem Moving.pull {amount : Nat} (moving : Moving A others s amount) (nodes : s.n = first :: rest) :
    ∃ s', pull A s first rest (min amount first.len) = some s' ∧
      Pulled s first rest others (min amount first.len) s' ∧
      Moving A others s' (amount - min amount first.len) := by
  obtain ⟨wf, fit, fits, room⟩ := moving
  rw [nodes, List.cons_append] at wf
  rw [nodes] at fits
  have small := wf.room_lt List.mem_cons_self
  have count : min amount first.len ≤ min amount (total s.n) := by
    rw [nodes, total_cons]
    omega
  generalize moved : min amount first.len = k at *
  have inside : s.m.tail + k ≤ s.m.room.stop := by omega
  have low : s.m.room.addr ≤ s.m.tail := Nat.le_trans fit.1 (Nat.le_add_right _ _)
  have filled : s.pool.fill s.m first.data s.m.tail k =
      some { s.pool with mem := bcopy s.pool.mem first.data s.m.tail k } := if_pos (.inr ⟨low, inside⟩)
  have length : wrap (s.m.len + k) = s.m.len + k := by
    apply wrap_of_lt
    simp only [Mbuf.tail] at inside
    omega
  have written : Wf A { s.pool with mem := bcopy s.pool.mem first.data s.m.tail k }
      ({ s.m with len := s.m.len + k } :: first :: (rest ++ others)) := by
    refine (wf.write List.mem_cons_self ?_).adjust rfl rfl rfl (fun _ => rfl)
    intro x outside
    exact bcopy_outside (by omega)
  have room' : { s.m with len := s.m.len + k }.tail + min (amount - k) (total (behind first rest k)) ≤
      s.m.room.stop := by
    rw [total_behind (by omega)]
    simp only [Mbuf.tail, nodes] at *
    omega
  have fit' : Mbuf.Fit { s.m with len := s.m.len + k } := by
    refine ⟨fit.1, ?_⟩
    show s.m.data + (s.m.len + k) ≤ s.m.room.stop
    simp only [Mbuf.tail] at inside
    omega
  by_cases part : k < first.len
  · have shape : behind first rest k =
        { first with len := first.len - k, data := first.data + k } :: rest := if_pos part
    refine ⟨_, pull_part filled part, ⟨?_, rfl, rfl, rfl, rfl, ?_, fun _ _ _ => rfl⟩, ?_⟩
    · simp only [length]
    · rw [if_pos part]
      rfl
    · simp only [length]
      refine ⟨?_, fit', fit_behind fits, room'⟩
      simp only [shape]
      exact written.adjust_second rfl rfl rfl (fun _ => rfl)
  · have shape : behind first rest k = rest := if_neg part
    have emptied : Wf A { s.pool with mem := bcopy s.pool.mem first.data s.m.tail k }
        ({ s.m with len := s.m.len + k } :: { first with len := first.len - k } :: (rest ++ others)) :=
      written.adjust_second rfl rfl rfl (fun _ => rfl)
    obtain ⟨P', freed, wf', result⟩ := (emptied.perm (List.Perm.swap _ _ _)).free
    refine ⟨_, pull_whole filled part freed, ⟨?_, rfl, rfl, rfl, result.taken, ?_, ?_⟩, ?_⟩
    · simp only [length]
    · rw [if_neg part]
      exact result.freed
    · simp only [length, shape]
      intro e member fitE
      apply bytes_congr
      intro x start stop
      exact result.calm.mem e member x (Nat.le_trans fitE.1 start) (Nat.lt_of_lt_of_le stop fitE.2)
    · simp only [length]
      refine ⟨?_, fit', fit_behind fits, room'⟩
      simp only [shape]
      exact wf'

/-- No byte of the chain is overwritten before it has been moved, when `amount` bytes are taken from
    the chain and put to `dst`, mbuf by mbuf. -/
def Ahead (dst amount : Nat) : Chain → Prop
  | [] => True
  | first :: rest =>
    Region.Clear ⟨first.data + min amount first.len, first.len - min amount first.len⟩
      ⟨dst, min amount first.len⟩ ∧
    (∀ e ∈ rest, Region.Clear e.extent ⟨dst, min amount first.len⟩) ∧
    Ahead (dst + min amount first.len) (amount - min amount first.len) rest

theorem Ahead.zero (dst : Nat) (chain : Chain) : Ahead dst 0 chain := by
  have empty : ∀ r, Region.Clear r ⟨dst, 0⟩ := by
    intro r x low high inside
    simp only [Region.stop] at inside
    omega
  induction chain with
  | nil => trivial
  | cons first rest ih =>
    simp only [Ahead, Nat.zero_min, Nat.add_zero, Nat.sub_zero]
    exact ⟨empty _, fun e _ => empty _, ih⟩

theorem Ahead.behind {dst amount : Nat} (ahead : Ahead dst amount (first :: rest)) :
    Ahead (dst + min amount first.len) (amount - min amount first.len)
      (behind first rest (min amount first.len)) := by
  unfold Uipc.behind
  split
  · have all : amount - min amount first.len = 0 := by omega
    rw [all]
    exact Ahead.zero _ _
  · exact ahead.2.2

theorem bytes_clear {mem : Memory} {src dst count : Nat} {r : Region} (clear : Region.Clear r ⟨dst, count⟩) :
    bytes (bcopy mem src dst count) r.addr r.size = bytes mem r.addr r.size := by
  apply bytes_congr
  intro x low high
  exact bcopy_outside (clear x low high)

theorem Pulled.others_kept {count : Nat} (pulled : Pulled s first rest others count s') {e : Mbuf}
    (member : e ∈ others) (fit : e.Fit) (clear : Region.Clear e.extent ⟨s.m.tail, count⟩) :
    bytes s'.pool.mem e.data e.len = bytes s.pool.mem e.data e.len := by
  rw [pulled.mem e (List.mem_cons_of_mem _ (List.mem_append_right _ member)) fit]
  exact bytes_clear (r := e.extent) clear

theorem Pulled.flatten_eq {amount : Nat} (pulled : Pulled s first rest others (min amount first.len) s')
    (nodes : s.n = first :: rest) (moved : Moving A others s' (amount - min amount first.len))
    (ahead : Ahead s.m.tail amount s.n) :
    flatten s'.pool.mem (s'.m :: s'.n) = flatten s.pool.mem (s.m :: s.n) := by
  rw [nodes] at ahead
  obtain ⟨rem, later, _⟩ := ahead
  have bound : min amount first.len ≤ first.len := Nat.min_le_right _ _
  generalize min amount first.len = k at *
  have through : flatten s'.pool.mem (s'.m :: s'.n) =
      flatten (bcopy s.pool.mem first.data s.m.tail k) (s'.m :: s'.n) := by
    apply List.flatMap_congr
    intro e member
    apply pulled.mem e
    · rw [← List.cons_append]
      exact List.mem_append_left _ member
    · rcases List.mem_cons.mp member with rfl | member
      · exact moved.fit
      · exact moved.fits e member
  have front : bytes (bcopy s.pool.mem first.data s.m.tail k) s.m.data (s.m.len + k) =
      bytes s.pool.mem s.m.data s.m.len ++ bytes s.pool.mem first.data k := by
    rw [bytes_add, ← Mbuf.tail, bytes_bcopy]
    congr 1
    apply bytes_clear (r := s.m.extent)
    intro x low high inside
    simp only [Region.stop, Mbuf.extent, Mbuf.tail] at *
    omega
  have after : flatten (bcopy s.pool.mem first.data s.m.tail k) rest = flatten s.pool.mem rest := by
    apply List.flatMap_congr
    intro e member
    exact bytes_clear (r := e.extent) (later e member)
  have left : flatten (bcopy s.pool.mem first.data s.m.tail k) (behind first rest k) =
      bytes s.pool.mem (first.data + k) (first.len - k) ++ flatten s.pool.mem rest := by
    unfold behind
    split
    · rw [flatten_cons, after]
      congr 1
      exact bytes_clear (r := ⟨first.data + k, first.len - k⟩) rem
    · have none : first.len - k = 0 := by omega
      rw [after, none]
      rfl
  rw [through, pulled.n, pulled.m, flatten_cons, front, left, nodes, flatten_cons, flatten_cons]
  have join : bytes s.pool.mem first.data first.len =
      bytes s.pool.mem first.data k ++ bytes s.pool.mem (first.data + k) (first.len - k) := by
    rw [← bytes_add, Nat.add_sub_cancel' bound]
  rw [join]
  simp only [List.append_assoc]

structure Steady (limit : Pulling → Nat) : Prop where
  le_len : ∀ s, limit s ≤ s.len
  next : ∀ s s' count, s.len < 2^32 → s.space < 2^32 → count ≤ limit s → s'.len = wsub s.len count →
    s'.space = wsub s.space count → limit s' = limit s - count

theorem steady_len : Steady Pulling.len := by
  constructor
  · intro s
    exact Nat.le_refl _
  · intro s s' count small _ bound len _
    rw [len, wsub_of_le bound small]

theorem steady_pullup : Steady (pullupLimit 0) := by
  constructor
  · intro s
    simp only [pullupLimit]
    omega
  · intro s s' count smallLen smallSpace bound len space
    simp only [pullupLimit] at *
    rw [len, space, wsub_of_le (by omega) smallLen, wsub_of_le (by omega) smallSpace]
    omega

structure Going (A : Arena) (others : List Mbuf) (limit : Pulling → Nat) (s : Pulling) : Prop where
  moving : Moving A others s (limit s)
  len : s.len < 2^32
  space : s.space < 2^32

variable {limit : Pulling → Nat}

theorem Going.pass (steady : Steady limit) (going : Going A others limit s) (nodes : s.n = first :: rest)
    (more : s.len ≠ 0) :
    ∃ s', pullPass A limit s = some (.again s') ∧
      Pulled s first rest others (min (limit s) first.len) s' ∧ Going A others limit s' ∧
      limit s' = limit s - min (limit s) first.len ∧ s'.len = s.len - min (limit s) first.len := by
  obtain ⟨s', step, pulled, moving⟩ := going.moving.pull nodes
  have bound := steady.le_len s
  have count : min (limit s) first.len ≤ limit s := Nat.min_le_left _ _
  have next := steady.next s s' _ going.len going.space count pulled.len pulled.space
  refine ⟨s', ?_, pulled, ⟨?_, ?_, ?_⟩, next, ?_⟩
  · simp only [pullPass, nodes, more, if_false, step]
  · rw [next]
    exact moving
  · rw [pulled.len]
    exact wrap_lt _
  · rw [pulled.space]
    exact wrap_lt _
  · rw [pulled.len, wsub_of_le (by omega) going.len]

theorem Going.returns (steady : Steady limit) (keep : Pulling → Prop)
    (step : ∀ s s' first rest, Going A others limit s → Going A others limit s' → s.n = first :: rest →
      Pulled s first rest others (min (limit s) first.len) s' →
      limit s' = limit s - min (limit s) first.len → s'.len = s.len - min (limit s) first.len →
      keep s → keep s')
    (going : Going A others limit s) (enough : min s.len (total s.n) ≤ limit s) (kept : keep s) :
    ∃ fuel s', loop (pullPass A limit) fuel s = some s' ∧ Going A others limit s' ∧ keep s' ∧
      (s'.len = 0 ∨ s'.n = []) := by
  refine ⟨s.n.length + 2, loop_variant
    (fun t : Pulling => Going A others limit t ∧ min t.len (total t.n) ≤ limit t ∧ keep t)
    (fun t : Pulling => t.n.length + if t.len = 0 then 0 else 1)
    (fun t : Pulling => Going A others limit t ∧ keep t ∧ (t.len = 0 ∨ t.n = []))
    ?_ _ s ⟨going, enough, kept⟩ ?_⟩
  · rintro t ⟨going, enough, kept⟩
    cases nodes : t.n with
    | nil =>
      right
      refine ⟨t, ?_, going, kept, .inr nodes⟩
      simp only [pullPass, nodes]
    | cons first rest =>
      by_cases done : t.len = 0
      · right
        refine ⟨t, ?_, going, kept, .inl done⟩
        simp only [pullPass, nodes, done, if_true]
      · left
        obtain ⟨t', passed, pulled, going', next, len⟩ := going.pass steady nodes done
        have bound := steady.le_len t
        refine ⟨t', passed, ⟨going', ?_, step t t' first rest going going' nodes pulled next len kept⟩, ?_⟩
        · rw [pulled.n, total_behind (Nat.min_le_right _ _), len, next]
          rw [nodes] at enough
          omega
        · -- a pass that does not empty the first mbuf has moved all that was asked for
          simp only [pulled.n, behind, done, if_false]
          rw [nodes, total_cons] at enough
          split
          · have last : t'.len = 0 := by omega
            simp only [last, if_true, List.length_cons]
            omega
          · simp only [List.length_cons]
            split <;> omega
  · split <;> omega

theorem pullEnd_short {s : Pulling} (short : s.len > 0) : pullEnd A s = bad A s.pool (s.m :: s.n) := by
  simp only [pullEnd, short, if_true, bad, mbufFreem]
  cases mbufFree A s.pool s.m <;> rfl

theorem pullEnd_done {s : Pulling} (done : s.len = 0) : pullEnd A s = some (s.m :: s.n, s.pool) := by
  simp [pullEnd, done]

theorem Wf.bad_frees {chain : Chain} (wf : Wf A P (chain ++ others)) :
    ∃ P', bad A P chain = some ([], P') ∧ Wf A P' others ∧
      Freed P P' others (chain.map Mbuf.addr).reverse := by
  obtain ⟨P', freed, wf', result⟩ := wf.freem
  exact ⟨P', by rw [bad, freed], wf', result⟩

end Embryo.Uipc
