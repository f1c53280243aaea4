import Embryo.Uipc.Pullup

namespace Embryo.Uipc

open Embryo.Machine

structure Shrunk (m m' : Mbuf) : Prop where
  within : Region.Within m'.extent m.extent
  flags : m'.flags = m.flags
  pkthdr : m'.pkthdr = m.pkthdr

structure Trimmed (mem : Memory) (chain new : Chain) (data : List UInt8) : Prop where
  data : flatten mem new = data
  ranges : List.Forall₂ (fun m m' => Region.Within m'.extent m.extent) chain new
  header : ∀ m ∈ new.head?, m.flags.pkthdr = true ∧ m.pkthdr.mpLen = total new

variable {mem : Memory} {chain : Chain} {first : Mbuf} {rest : Chain}

theorem Shrunk.refl (m : Mbuf) : Shrunk m m := ⟨⟨Nat.le_refl _, Nat.le_refl _⟩, rfl, rfl⟩

theorem Shrunk.front (m : Mbuf) {count : Nat} (bound : count ≤ m.len) : Shrunk m { m with len := count } :=
  ⟨⟨Nat.le_refl _, Nat.add_le_add_left bound _⟩, rfl, rfl⟩

theorem forall_shrunk_refl (chain : Chain) : List.Forall₂ Shrunk chain chain :=
  List.forall₂_same.mpr fun m _ => .refl m

theorem emptied_data (mem : Memory) (chain : Chain) :
    flatten mem (chain.map fun m => { m with len := 0 }) = [] := by
  induction chain with
  | nil => rfl
  | cons m rest ih =>
    rw [List.map_cons, flatten_cons, ih]
    rfl

theorem emptied_shrunk (chain : Chain) :
    List.Forall₂ Shrunk chain (chain.map fun m => { m with len := 0 }) := by
  induction chain with
  | nil => exact .nil
  | cons m rest ih => exact .cons (.front m (Nat.zero_le _)) ih

theorem trimHead_spec (mem : Memory) (chain : Chain) (len : Nat) :
    flatten mem (trimHead chain len).1 = (flatten mem chain).drop len ∧
      (trimHead chain len).2 = len - total chain ∧
      List.Forall₂ Shrunk chain (trimHead chain len).1 := by
  induction chain generalizing len with
  | nil => exact ⟨(List.drop_nil).symm, (Nat.sub_zero len).symm, .nil⟩
  | cons m rest ih =>
    rw [trimHead]
    split
    · rename_i none
      subst none
      exact ⟨rfl, (Nat.zero_sub _).symm, forall_shrunk_refl _⟩
    split
    · rename_i inside
      rw [flatten_cons, flatten_cons, List.drop_append_of_le_length
        (by rw [bytes_length]; exact inside), bytes_drop mem inside, total_cons]
      refine ⟨rfl, by
        dsimp only; omega, .cons ⟨⟨Nat.le_add_right _ _, ?_⟩, rfl, rfl⟩ (forall_shrunk_refl rest)⟩
      simp only [Region.stop, Mbuf.extent]
      omega
    · rename_i beyond
      obtain ⟨data, left, shrunk⟩ := ih (len - m.len)
      have gone : (bytes mem m.data m.len).drop len = [] :=
        List.drop_of_length_le (by rw [bytes_length]; omega)
      dsimp only
      rw [flatten_cons, flatten_cons, data, left, List.drop_append, bytes_length, gone, total_cons]
      exact ⟨rfl, by omega, .cons (.front m (Nat.zero_le _)) shrunk⟩

theorem trimTail_spec (mem : Memory) {chain : Chain} {count : Nat} (bound : count ≤ total chain) :
    flatten mem (trimTail chain count) = (flatten mem chain).take count ∧
      List.Forall₂ Shrunk chain (trimTail chain count) := by
  induction chain generalizing count with
  | nil => exact ⟨(List.take_nil).symm, .nil⟩
  | cons m rest ih =>
    rw [total_cons] at bound
    rw [trimTail]
    split
    · rename_i inside
      rw [flatten_cons, flatten_cons, emptied_data, List.append_nil,
        List.take_append_of_le_length (by rw [bytes_length]; exact inside),
        bytes_take mem inside]
      exact ⟨rfl, .cons (.front m inside) (emptied_shrunk rest)⟩
    · obtain ⟨data, shrunk⟩ := @ih (count - m.len) (by omega)
      have whole : (bytes mem m.data m.len).take count = bytes mem m.data m.len :=
        List.take_of_length_le (by rw [bytes_length]; omega)
      rw [flatten_cons, flatten_cons, data, List.take_append, bytes_length, whole]
      exact ⟨rfl, .cons (.refl m) shrunk⟩

theorem total_flatten (mem : Memory) (chain : Chain) : total chain = (flatten mem chain).length :=
  (flatten_length mem chain).symm

theorem Trimmed.headed {new : Chain} {data : List UInt8} {f : Nat → Nat} (flat : flatten mem new = data)
    (shrunk : List.Forall₂ Shrunk (first :: rest) new) (flagged : first.flags.pkthdr = true)
    (count : f first.pkthdr.mpLen = data.length) : Trimmed mem (first :: rest) (setMpLen new f) data := by
  cases shrunk with
  | @cons _ first' _ rest' here behind =>
    have flag : first'.flags.pkthdr = true := by rw [here.flags, flagged]
    rw [setMpLen, if_pos flag]
    refine ⟨flat, .cons here.within (behind.imp fun m m' less => less.within), ?_⟩
    intro m isHead
    cases isHead
    refine ⟨flag, ?_⟩
    have sum : total (first' :: rest') = data.length := by rw [total_flatten mem, flat]
    dsimp only
    rw [here.pkthdr, count, ← sum]
    rfl

/-- `mbuf_trim` drops the first or the last `trimlen` bytes of a packet. -/
theorem trim_drops (flagged : first.flags.pkthdr = true) (sum : first.pkthdr.mpLen = total (first :: rest))
    (word : first.pkthdr.mpLen < 2^32) (mem : Memory) (trimlen : Nat) :
    Trimmed mem (first :: rest) (mbufTrim (first :: rest) trimlen false)
    ((flatten mem (first :: rest)).drop trimlen) ∧
      Trimmed mem (first :: rest) (mbufTrim (first :: rest) trimlen true)
        ((flatten mem (first :: rest)).take (total (first :: rest) - trimlen)) := by
  constructor
  · obtain ⟨data, left, shrunk⟩ := trimHead_spec mem (first :: rest) trimlen
    rw [mbufTrim, if_neg Bool.false_ne_true]
    refine @Trimmed.headed mem first rest _ _ (fun mpLen =>
      if (trimHead (first :: rest) trimlen).2 ≠ 0 then 0 else wsub mpLen trimlen)
      data shrunk flagged ?_
    rw [List.length_drop, flatten_length, left, ← sum]
    split
    · omega
    · exact wsub_of_le (by omega) word
  · rw [mbufTrim, if_pos rfl]
    dsimp only
    rw [wrap_of_lt (sum ▸ word)]
    have kept : total (first :: rest) - min (total (first :: rest)) trimlen =
      total (first :: rest) - trimlen := by omega
    rw [kept, setMpLen, if_pos flagged]
    generalize headed :
      ({ first with pkthdr := { first.pkthdr with mpLen := total (first :: rest) - trimlen } } :
        Mbuf) = first'
    obtain ⟨data, shrunk⟩ := @trimTail_spec mem (first' :: rest) (total (first :: rest) - trimlen) (by
      subst headed
      exact Nat.sub_le _ _)
    have size : ((flatten mem (first :: rest)).take (total (first :: rest) - trimlen)).length =
        total (first :: rest) - trimlen := by
      rw [List.length_take, flatten_length]
      exact Nat.min_eq_left (Nat.sub_le _ _)
    subst headed
    generalize trimTail _ _ = new at data shrunk ⊢
    have total : total new = total (first :: rest) - trimlen := by
      rw [total_flatten mem, data]
      exact size
    cases shrunk with
    | @cons _ new _ news here behind =>
      refine ⟨data, .cons here.within (behind.imp fun m m' less => less.within), ?_⟩
      intro m isHead
      cases isHead
      refine ⟨?_, ?_⟩
      · rw [here.flags]
        exact flagged
      · rw [here.pkthdr]
        exact total.symm

def pair : Chain :=
  [⟨1024, 1024 + sizeofMHdr + sizeofPkthdr, 4, ⟨true, false, false, false, false⟩, 2, ⟨7, 0⟩, ⟨0, 0, 0, 0⟩⟩,
    ⟨2048, 2048 + sizeofMHdr, 3, noFlags, 2, ⟨0, 0⟩, ⟨0, 0, 0, 0⟩⟩]

theorem trim_drops_pair : Trimmed (fun _ => 0) pair (mbufTrim pair 5 false)
    ((flatten (fun _ => 0) pair).drop 5) ∧
    Trimmed (fun _ => 0) pair (mbufTrim pair 5 true) ((flatten (fun _ => 0) pair).take (total pair - 5)) :=
  trim_drops rfl rfl (by decide) (fun _ => 0) 5

end Embryo.Uipc
