import Embryo.Uipc.Reserve

namespace Embryo.Uipc

open Embryo.Machine
open Embryo.Kmem (Arena kmemSize)

theorem length_le_of_apart {starts : List Nat} {size base count : Nat} (positive : 0 < size)
    (inside : ∀ a ∈ starts, base ≤ a ∧ a + size ≤ base + count * size)
    (apart : starts.Pairwise fun a b => a + size ≤ b ∨ b + size ≤ a) : starts.length ≤ count := by
  have behind : ∀ a b, base ≤ a → a + size ≤ b → (a - base) / size < (b - base) / size := by
    intro a b low away
    have further : (a - base + size) / size ≤ (b - base) / size := Nat.div_le_div_right (by omega)
    rw [Nat.add_div_right _ positive] at further
    exact further
  have distinct : (starts.map fun a => (a - base) / size).Nodup := by
    apply List.pairwise_map.mpr
    apply apart.imp_of_mem
    intro a b inA inB away same
    rcases away with before | after
    · exact absurd same (Nat.ne_of_lt (behind a b (inside a inA).1 before))
    · exact absurd same.symm (Nat.ne_of_lt (behind b a (inside b inB).1 after))
  have small : (starts.map fun a => (a - base) / size).toFinset ⊆ Finset.range count := by
    intro i member
    obtain ⟨a, isStart, rfl⟩ := List.mem_map.mp (List.mem_toFinset.mp member)
    obtain ⟨low, high⟩ := inside a isStart
    apply Finset.mem_range.mpr
    apply Nat.div_lt_of_lt_mul
    rw [Nat.mul_comm]
    omega
  have card := Finset.card_le_card small
  rw [List.toFinset_card_of_nodup distinct, List.length_map, Finset.card_range] at card
  exact card

variable {A : Arena} {P P' : Pool} {first : Mbuf} {chain rest : Chain} {live others : List Mbuf} {len : Nat}

theorem Wf.block_above (wf : Wf A P live) {m : Mbuf} (member : m ∈ live) : A.kmembase ≤ m.addr := by
  obtain ⟨pages, fixed, foreign, laid, -⟩ := wf.placed
  obtain ⟨chunks, regions, inv⟩ := laid.kmem
  have held := inv.held (hold m) (List.mem_append_left _ (List.mem_map_of_mem member))
  exact (inv.bounds _ held.1).1

theorem Wf.length_le (wf : Wf A P live) : live.length ≤ kmemSize / msize := by
  have starts : (addrs live).length ≤ kmemSize / msize := by
    apply @length_le_of_apart _ msize A.kmembase _ (by decide)
    · intro a member
      obtain ⟨m, inLive, rfl⟩ := List.mem_map.mp member
      have below := wf.placed.block_below inLive
      have above := wf.block_above inLive
      have offs := wf.placed.offs_le
      have whole : kmemSize / msize * msize = kmemSize := by decide
      rw [whole]
      simp only [Region.stop, Mbuf.block] at below
      omega
    · rw [addrs, List.pairwise_map]
      have apart := wf.placed.blocks_apart
      rw [List.pairwise_map] at apart
      exact apart.imp fun away => away
  rwa [addrs, List.length_map] at starts

theorem total_le (fits : ∀ e ∈ chain, e.Fit) : total chain ≤ chain.length * mclBytes := by
  induction chain with
  | nil => exact Nat.le_refl 0
  | cons m rest ih =>
    have size : m.room.size ≤ mclBytes := by
      unfold Mbuf.room
      split
      · exact Nat.le_refl _
      · split <;> simp only [mhlen, mlen, msize, sizeofMHdr, sizeofPkthdr, mclBytes, mclShift] <;> omega
    have fit := fits m List.mem_cons_self
    have short : m.len ≤ mclBytes := by
      simp only [Mbuf.Fit, Region.stop] at fit
      omega
    have behind := ih fun e member => fits e (List.mem_cons_of_mem m member)
    rw [total_cons, List.length_cons, Nat.succ_mul]
    omega

theorem Wf.total_le (wf : Wf A P (chain ++ others)) (fits : ∀ e ∈ chain, e.Fit) : total chain ≤ 2^30 := by
  have count := wf.length_le
  have capacity : kmemSize / msize = 524288 := by decide
  rw [List.length_append, capacity] at count
  have bytes := Uipc.total_le fits
  simp only [mclBytes, mclShift] at bytes
  omega

/-- The packet `first :: rest` with `len` bytes in front of its data: they are nobody's data, and
    the header counts them. -/
structure Prepended (P P' : Pool) (first : Mbuf) (rest others : Chain) (len : Nat) (head : Mbuf)
    (tail : Chain) : Prop where
  window : Windowed head len
  long : len ≤ head.len
  alone : ∀ e ∈ tail ++ others, Region.Clear e.extent ⟨head.data, len⟩
  data : flatten P'.mem ({ head with data := head.data + len, len := head.len - len } :: tail) =
    flatten P.mem (first :: rest)
  pkthdr : head.flags.pkthdr = true
  mpLen : head.pkthdr.mpLen = first.pkthdr.mpLen + len ∧ head.pkthdr.mpLen = total (head :: tail)

def FreedOnce (P P' : Pool) (chain : Chain) : Prop :=
  ∃ taken gone, P'.taken = taken ++ P.taken ∧ P'.freed = gone ++ P.freed ∧ gone.Perm (addrs chain ++ taken)

theorem Moved.freedOnce (moved : Moved A [] P P' (chain ++ others) others) : FreedOnce P P' chain := by
  obtain ⟨taken, gone, took, went, balance, -⟩ := moved.ledger
  refine ⟨taken, gone, took, went, ?_⟩
  rw [addrs_append, ← List.append_assoc] at balance
  exact ((List.perm_append_right_iff _).mp balance).trans List.perm_append_comm

/-- The first mbuf of what `mbuf_reserve` returns has the bytes, and storage of its own if they are
    more than none. -/
theorem Wf.reserve_head {head : Mbuf} {tail : Chain} (wf : Wf A P (first :: rest ++ live)) (fit : first.Fit)
    (reservable : Reservable A P first len)
    (returned : mbufReserve A P (first :: rest) len = some (head :: tail, P')) :
    len ≤ head.len ∧ (head.flags.ext = false ∨ len = 0) := by
  by_cases space : len ≤ leadingSpace first
  · rw [reserve_in_place space] at returned
    cases returned
    by_cases shared : first.flags.ext = true
    · rw [leadingSpace, if_pos shared] at space
      exact ⟨by omega, .inr (Nat.le_zero.mp space)⟩
    · rw [Bool.not_eq_true] at shared
      have below : first.room.stop < 2^32 := wf.room_lt (by simp)
      have lead := leadingSpace_eq shared fit below
      have fit := fit
      simp only [Mbuf.Fit] at fit
      have sum : (widened first len).len = first.len + len := wrap_of_lt (by omega)
      exact ⟨by omega, .inl shared⟩
  · obtain ⟨short, granted⟩ := reservable.resolve_left space
    rcases wf.take (wf.types first (by simp)) false with ⟨zero, -⟩ | ⟨p, k, -, -, given, -⟩
    · exact absurd zero granted
    · rw [reserve_fresh rfl space short given] at returned
      cases returned
      exact ⟨Nat.le_refl len, .inl (fronted_room short).2⟩

/-- `mbuf_reserve` puts `len` bytes in front of a packet, or frees it once. -/
theorem reserve_prepends (wf : Wf A P (first :: rest ++ others)) (fits : ∀ e ∈ first :: rest ++ others, e.Fit)
    (flagged : first.flags.pkthdr = true) (sum : first.pkthdr.mpLen = total (first :: rest)) (len : Nat) :
    (∃ head tail P', mbufReserve A P (first :: rest) len = some (head :: tail, P') ∧
      Prepended P P' first rest others len head tail) ∨
      ∃ P', mbufReserve A P (first :: rest) len = some ([], P') ∧ FreedOnce P P' (first :: rest) := by
  have fitsChain : ∀ e ∈ first :: rest, e.Fit := fun e member => fits e (List.mem_append_left others member)
  rcases @Wf.reserve A [] P first rest others wf fitsChain nofun len with ⟨-, P', failed, moved, -⟩ |
    ⟨reservable, head, tail, P', returned, moved, calm, reserved⟩
  · exact .inr ⟨P', failed, moved.freedOnce⟩
  · left
    obtain ⟨long, plain⟩ := wf.reserve_head (fitsChain first List.mem_cons_self) reservable returned
    have whole := reserved.data P'.mem fun _ _ => rfl
    refine ⟨head, tail, P', returned, reserved.window, long, ?_, ?_, reserved.pkthdr.trans flagged, ?_⟩
    · intro e member x low high inside
      have fit : e.Fit := by
        rcases List.mem_append.mp member with behind | other
        · exact reserved.fits e (List.mem_cons_of_mem head behind)
        · exact fits e (List.mem_append_right (first :: rest) other)
      rcases plain with own | none
      · have apart := Wf.rooms_apart moved.wf own member
        have low' := reserved.window.low
        have high' := reserved.window.high
        simp only [Region.Apart, Region.stop, Mbuf.extent, Mbuf.Fit] at *
        omega
      · simp only [Region.stop] at inside
        omega
    · have split : head.len = len + (head.len - len) := by omega
      rw [flatten_cons, split, bytes_add, List.append_assoc] at whole
      rw [flatten_cons]
      exact List.append_cancel_left whole
    · have count := congrArg List.length whole
      rw [flatten_length, List.length_append, bytes_length, flatten_length] at count
      have bound := Wf.total_le moved.wf reserved.fits
      have grown := reserved.mpLen flagged
      rw [sum, wrap_of_lt (by omega)] at grown
      exact ⟨by rw [sum]; exact grown, by omega⟩

theorem reserve_prepends_received :
    (∃ head tail P', mbufReserve Kmem.board pktGet.2 [received 0] 14 = some (head :: tail, P') ∧
        Prepended pktGet.2 P' (received 0) [] [] 14 head tail) ∨
      ∃ P', mbufReserve Kmem.board pktGet.2 [received 0] 14 = some ([], P') ∧
        FreedOnce pktGet.2 P' [received 0] := by
  have edited := @Reachable.edit_head _ _ _ _ _ (received 0) pktGet_reachable rfl rfl rfl rfl
  have fits : ∀ e ∈ [received 0], e.Fit := by
    unfold Mbuf.Fit
    decide +kernel
  exact @reserve_prepends Kmem.board pktGet.2 (received 0) [] [] edited.wf fits rfl rfl 14

end Embryo.Uipc
