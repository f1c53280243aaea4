import Embryo.Machine.Splice
import Embryo.Uipc.Pullup

namespace Embryo.Uipc

open Embryo.Machine

/-- The first loop of `mbuf_copydata`. It goes past mbufs without data even when `off` is 0. -/
def seek : Chain → Nat → Chain × Nat
  | [], off => ([], off)
  | m :: n, off => if off < m.len then (m :: n, off) else seek n (off - m.len)

structure Copydata where
  mem : Memory
  copyed : Nat
  reads : List Region

def copyOut (buf : Nat) : Chain → Nat → Nat → Copydata → Copydata
  | [], _, _, s => s
  | m :: n, off, len, s =>
    if len = 0 then s
    else
      let cnt := min m.len len
      copyOut buf n 0 (len - cnt)
        ⟨bcopy s.mem (m.data + off) (buf + s.copyed) cnt, s.copyed + cnt, s.reads ++ [⟨m.data + off, cnt⟩]⟩

def mbufCopydata (mem : Memory) (m : Chain) (off len buf : Nat) : Copydata :=
  let (m, off) := seek m off
  copyOut buf m off len ⟨mem, 0, []⟩

/-- The bytes `[off, min(off + len, total))` of a chain. -/
def slice (mem : Memory) (chain : Chain) (off len : Nat) : List UInt8 :=
  ((flatten mem chain).drop off).take len

def Holds (chain : Chain) (x : Nat) : Prop := ∃ m ∈ chain, m.data ≤ x ∧ x < m.data + m.len

structure Extracted (mem : Memory) (chain : Chain) (off len buf : Nat) (s : Copydata) : Prop where
  data : bytes s.mem buf s.copyed = slice mem chain off len
  copyed : s.copyed = min (off + len) (total chain) - off
  frame : SameBut buf s.copyed mem s.mem
  reads : ∀ r ∈ s.reads, ∀ x, r.addr ≤ x → x < r.stop → Holds chain x

def Straight (chain : Chain) (off len : Nat) : Prop :=
  match seek chain off with
  | ([], _) => True
  | (m :: _, off) => off = 0 ∨ off + len ≤ m.len

def Gapped (chain : Chain) : Prop := ∀ m ∈ chain, ¬ Holds chain (m.data + m.len)

variable {mem : Memory} {chain : Chain} {off len buf : Nat}

theorem flatten_congr {mem' : Memory}
    (clear : ∀ m ∈ chain, ∀ x, m.data ≤ x → x < m.data + m.len → mem' x = mem x) :
    flatten mem' chain = flatten mem chain := by
  apply List.flatMap_congr
  intro m member
  exact bytes_congr (clear m member)

theorem copyOut_aligned {size : Nat} {s : Copydata} (room : s.copyed + len ≤ size)
    (clear : ∀ m ∈ chain, Region.Clear m.extent ⟨buf, size⟩) :
    ∃ reads, copyOut buf chain 0 len s =
        ⟨write s.mem (buf + s.copyed) ((flatten s.mem chain).take len),
          s.copyed + min len (total chain), s.reads ++ reads⟩ ∧
      ∀ r ∈ reads, ∃ m ∈ chain, Region.Within r m.extent := by
  induction chain generalizing s len with
  | nil =>
    refine ⟨[], ?_, nofun⟩
    simp [copyOut, flatten, total, write_nil]
  | cons m rest ih =>
    rw [copyOut]
    split
    · rename_i none
      refine ⟨[], ?_, nofun⟩
      rw [none, List.take_zero, write_nil, Nat.zero_min, Nat.add_zero, List.append_nil]
    · dsimp only
      rw [Nat.add_zero, bcopy_eq_write]
      have untouched : flatten (write s.mem (buf + s.copyed) (bytes s.mem m.data (min m.len len)))
          rest = flatten s.mem rest := by
        apply flatten_congr
        intro e member x low high
        apply write_outside
        rw [bytes_length]
        have apart := clear e (List.mem_cons_of_mem m member) x low high
        simp only [Region.stop] at apart
        omega
      obtain ⟨reads, copied, within⟩ := @ih (len - min m.len len)
        ⟨write s.mem (buf + s.copyed) (bytes s.mem m.data (min m.len len)), s.copyed + min m.len len,
          s.reads ++ [⟨m.data, min m.len len⟩]⟩ (by dsimp only; omega)
            (fun e member => clear e (List.mem_cons_of_mem m member))
      refine ⟨⟨m.data, min m.len len⟩ :: reads, ?_, ?_⟩
      · have behind : buf + (s.copyed + min m.len len) = buf + s.copyed +
            (bytes s.mem m.data (min m.len len)).length := by
          rw [bytes_length, Nat.add_assoc]
        have front : (flatten s.mem (m :: rest)).take len =
            bytes s.mem m.data (min m.len len) ++ (flatten s.mem rest).take (len - min m.len len) := by
          rw [flatten_cons, List.take_append, bytes_length]
          by_cases short : len ≤ m.len
          · rw [Nat.min_eq_right short, Nat.sub_self, Nat.sub_eq_zero_of_le short, bytes_take s.mem short]
          · rw [Nat.min_eq_left (by omega), List.take_of_length_le (by rw [bytes_length]; omega)]
        have count : s.copyed + min m.len len + min (len - min m.len len) (total rest) =
            s.copyed + min len (m.len + total rest) := by
          omega
        rw [copied, front, total_cons]
        dsimp only
        rw [untouched, behind, write_append, count, List.append_assoc, List.singleton_append]
      · intro r member
        rcases List.mem_cons.mp member with rfl | member
        · exact ⟨m, List.mem_cons_self, Nat.le_refl _, Nat.add_le_add_left (Nat.min_le_left _ _) _⟩
        · obtain ⟨e, inRest, inside⟩ := within r member
          exact ⟨e, List.mem_cons_of_mem m inRest, inside⟩

theorem seek_spec (chain : Chain) (off : Nat) : ∃ skipped, chain = skipped ++ (seek chain off).1 ∧
    off = total skipped + (seek chain off).2 ∧ ∀ m ∈ (seek chain off).1.head?, (seek chain off).2 <
      m.len := by
  induction chain generalizing off with
  | nil => exact ⟨[], rfl, by simp [seek, total], nofun⟩
  | cons m rest ih =>
    rw [seek]
    split
    · rename_i inside
      refine ⟨[], rfl, by simp [total], ?_⟩
      intro e isHead
      cases isHead
      exact inside
    · obtain ⟨skipped, parts, sum, less⟩ := ih (off - m.len)
      refine ⟨m :: skipped, ?_, ?_, less⟩
      · rw [List.cons_append, ← parts]
      · rw [total_cons]
        omega

theorem slice_eq (mem : Memory) (chain : Chain) (off len : Nat) :
    slice mem chain off len = slice mem (seek chain off).1 (seek chain off).2 len ∧
      total chain - off = total (seek chain off).1 - (seek chain off).2 := by
  obtain ⟨skipped, parts, sum, -⟩ := seek_spec chain off
  generalize (seek chain off).1 = found at *
  generalize (seek chain off).2 = rest at *
  subst parts sum
  rw [slice, flatten_append, List.drop_append, flatten_length,
    List.drop_of_length_le (by rw [flatten_length]; omega),
    List.nil_append, Nat.add_sub_cancel_left, slice, total_append]
  exact ⟨rfl, by omega⟩

theorem slice_length : (slice mem chain off len).length = min (off + len) (total chain) - off := by
  rw [slice, List.length_take, List.length_drop, flatten_length]
  omega

theorem extracted_write {reads : List Region} (within : ∀ r ∈ reads, ∃ m ∈ chain, Region.Within r m.extent) :
    Extracted mem chain off len buf ⟨write mem buf (slice mem chain off len),
      (slice mem chain off len).length, reads⟩ := by
  refine ⟨bytes_write mem buf _, slice_length, ?_, ?_⟩
  · intro x outside
    exact write_outside outside
  · intro r member x low high
    obtain ⟨m, inChain, start, stop⟩ := within r member
    exact ⟨m, inChain, Nat.le_trans start low, Nat.lt_of_lt_of_le high stop⟩

theorem copyOut_zero (s : Copydata) (chain : Chain) (off : Nat) : copyOut buf chain off 0 s = s := by
  cases chain with
  | nil => rfl
  | cons m rest => rw [copyOut, if_pos rfl]

theorem copyOut_reads {r : Region} {s : Copydata} {chain : Chain} {off len : Nat} (member : r ∈ s.reads) :
    r ∈ (copyOut buf chain off len s).reads := by
  induction chain generalizing off len s with
  | nil => exact member
  | cons m rest ih =>
    rw [copyOut]
    split
    · exact member
    · exact ih (List.mem_append_left _ member)

theorem slice_inside {m : Mbuf} {rest : Chain} (inside : off + len ≤ m.len) :
    slice mem (m :: rest) off len = bytes mem (m.data + off) len := by
  have count : off ≤ (bytes mem m.data m.len).length := by
    rw [bytes_length]
    omega
  rw [slice, flatten_cons, List.drop_append_of_le_length count, bytes_drop mem (by omega),
    List.take_append_of_le_length (by rw [bytes_length]; omega), bytes_take mem (by omega)]

/-- `mbuf_copydata` copies the slice when it starts with a segment or ends in the one it starts in;
    otherwise it reads on behind the data of the first segment. -/
theorem copydata_is_slice (clear : ∀ m ∈ chain, Region.Clear m.extent ⟨buf, len⟩) :
    (Straight chain off len → Extracted mem chain off len buf (mbufCopydata mem chain off len buf)) ∧
      (Gapped chain → Extracted mem chain off len buf (mbufCopydata mem chain off len buf) →
        Straight chain off len) := by
  obtain ⟨skipped, parts, sum, less⟩ := seek_spec chain off
  obtain ⟨same, left⟩ := slice_eq mem chain off len
  have found : ∀ m ∈ (seek chain off).1, m ∈ chain := by
    intro m member
    rw [parts]
    exact List.mem_append_right skipped member
  constructor
  · intro straight
    rw [Straight] at straight
    rw [mbufCopydata]
    generalize seek chain off = stop at *
    obtain ⟨_ | ⟨m, rest⟩, inner⟩ := stop
    · have empty : slice mem chain off len = [] := by
        rw [same]
        simp [slice, flatten]
      have nothing := @extracted_write mem chain off len buf [] nofun
      rw [empty, write_nil] at nothing
      exact nothing
    · dsimp only at straight same left found ⊢
      rcases straight with rfl | inside
      · obtain ⟨reads, copied, within⟩ := @copyOut_aligned (m :: rest) len buf len ⟨mem, 0, []⟩
          (by dsimp only; omega)
          (fun e member => clear e (found e member))
        have count : (slice mem chain off len).length = min len (total (m :: rest)) := by
          rw [same, slice_length]
          omega
        have data : (flatten mem (m :: rest)).take len = slice mem chain off len := by
          rw [same, slice, List.drop_zero]
        rw [copied, List.nil_append]
        dsimp only
        rw [Nat.add_zero, Nat.zero_add, data, ← count]
        apply extracted_write
        intro r member
        obtain ⟨e, inFound, inExtent⟩ := within r member
        exact ⟨e, found e inFound, inExtent⟩
      · have data : slice mem chain off len = bytes mem (m.data + inner) len :=
          same.trans (slice_inside inside)
        have count : (slice mem chain off len).length = len := by rw [data, bytes_length]
        by_cases none : len = 0
        · subst none
          have nothing := @extracted_write mem chain off 0 buf [] nofun
          rw [List.eq_nil_of_length_eq_zero count, write_nil] at nothing
          rw [copyOut_zero]
          exact nothing
        · have one := @extracted_write mem chain off len buf [⟨m.data + inner, len⟩] (by
            intro r member
            obtain rfl := List.mem_singleton.mp member
            exact ⟨m, found m List.mem_cons_self, Nat.le_add_right _ _, by
              simp only [Region.stop, Mbuf.extent]; omega⟩)
          rw [copyOut, if_neg none]
          dsimp only
          rw [Nat.min_eq_right (by omega), Nat.sub_self, copyOut_zero, bcopy_eq_write, ← data,
            Nat.add_zero, Nat.zero_add]
          rw [count] at one
          exact one
  · intro gapped extracted
    unfold Straight
    split
    · trivial
    · rename_i m rest inner stopped
      rw [stopped] at less found
      have inside : inner < m.len := less m rfl
      by_contra crossing
      have some : len ≠ 0 := by omega
      have read : ⟨m.data + inner, min m.len len⟩ ∈ (mbufCopydata mem chain off len buf).reads := by
        rw [mbufCopydata, stopped]
        dsimp only
        rw [copyOut, if_neg some]
        exact copyOut_reads List.mem_cons_self
      have stop : m.data + m.len < m.data + inner + min m.len len := by omega
      exact gapped m (found m List.mem_cons_self)
        (extracted.reads _ read (m.data + m.len) (by dsimp only; omega) stop)

def segment (a len : Nat) : Mbuf := ⟨a, a + sizeofMHdr, len, noFlags, 2, ⟨0, 0⟩, ⟨0, 0, 0, 0⟩⟩

theorem copydata_is_slice_behind :
    Extracted (fun _ => 0) [segment 1024 4, segment 2048 3] 4 3 4096
      (mbufCopydata (fun _ => 0) [segment 1024 4, segment 2048 3] 4 3 4096) := by
  have clear : ∀ m ∈ [segment 1024 4, segment 2048 3], Region.Clear m.extent ⟨4096, 3⟩ := by
    intro m member
    apply Region.Apart.clear
    left
    fin_cases member <;> decide
  exact (copydata_is_slice clear).1 (.inl rfl)

/-- From the second byte on, the byte behind the first segment is read. -/
theorem copydata_reads_on : ¬ Extracted (fun _ => 0) [segment 1024 4, segment 2048 3] 1 4 4096
    (mbufCopydata (fun _ => 0) [segment 1024 4, segment 2048 3] 1 4 4096) := by
  intro extracted
  obtain ⟨m, member, low, high⟩ := extracted.reads ⟨1045, 4⟩ List.mem_cons_self 1048 (by decide) (by decide)
  rcases List.mem_cons.mp member with rfl | last
  · exact absurd high (by decide)
  · obtain rfl := List.mem_singleton.mp last
    exact absurd low (by decide)

end Embryo.Uipc
