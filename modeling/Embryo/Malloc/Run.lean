import Embryo.Malloc.Search

namespace Embryo.Malloc

open Embryo.Machine

structure Holding where
  ptr : Nat
  nbytes : Nat
deriving DecidableEq, Repr

def Holding.block (h : Holding) : Block := ⟨h.ptr - sizeofHeader, unitsOf h.nbytes, false⟩

/-- The states some sequence of calls leads to. `ok` restricts the requests; callers may
    write anything into the bytes they hold. -/
inductive Reachable (L : Layout) (ok : State → Nat → Prop) : State → List Holding → Prop
  | init (mem : Nat → Header) : Reachable L ok (start L mem) []
  | handed {s s' : State} {live : List Holding} {fuel nbytes p : Nat}
      (run : Reachable L ok s live) (admitted : ok s nbytes)
      (result : malloc L fuel s nbytes = some (p, s')) (found : p ≠ 0) :
      Reachable L ok s' (⟨p, nbytes⟩ :: live)
  | refused {s s' : State} {live : List Holding} {fuel nbytes : Nat}
      (run : Reachable L ok s live) (admitted : ok s nbytes)
      (result : malloc L fuel s nbytes = some (0, s')) : Reachable L ok s' live
  | freed {s s' : State} {live : List Holding} {fuel : Nat} {h : Holding}
      (run : Reachable L ok s live) (held : h ∈ live)
      (result : free fuel s h.ptr = some s') : Reachable L ok s' (live.erase h)
  | stored {s : State} {live : List Holding} {h : Holding} {a : Nat} {content : Header}
      (run : Reachable L ok s live) (held : h ∈ live) (low : h.ptr ≤ a)
      (high : a < h.ptr + h.nbytes) : Reachable L ok (s.setHeader a content) live

structure Sound (L : Layout) (s : State) (live : List Holding) (bs : List Block) : Prop where
  ring : Circular (fun a => (s.mem a).ptr) (nodes L bs)
  ordered : (nodes L bs).Pairwise (· < ·)
  rover : s.allocp ∈ nodes L bs
  coalesced : ∀ a ∈ bs, ∀ b ∈ bs, a.free = true → b.free = true → a.stop ≠ b.addr
  headers : ∀ b ∈ bs, (s.mem b.addr).size = b.size
  covered : ∀ x, L.heapBase ≤ x → x < s.mdAllocp → ∃! b, b ∈ bs ∧ b.addr ≤ x ∧ x < b.stop
  inside : ∀ b ∈ bs, L.heapBase ≤ b.addr ∧ b.stop ≤ s.mdAllocp
  used : (bs.filter (!·.free)).Perm (live.map Holding.block)
  disjoint : live.Pairwise (fun d e => d.block.stop ≤ e.block.addr ∨ e.block.stop ≤ d.block.addr)
  holds : ∀ h ∈ live, h.block.addr + sizeofHeader = h.ptr ∧ h.ptr + h.nbytes ≤ h.block.stop

structure Kept (L : Layout) (s : State) (live : List Holding) (bs : List Block) : Prop where
  wf : Wf L s bs
  used : (bs.filter (!·.free)).Perm (live.map Holding.block)
  sizes : ∀ h ∈ live, sizeofHeader ≤ h.ptr ∧ h.nbytes + 7 < 2^32

theorem adjacent_blocks {lo hi : Nat} {bs : List Block} (tiled : Tiled lo bs hi)
    (chain : bs.IsChain (fun a b => ¬ (a.free = true ∧ b.free = true))) {a b : Block}
    (memberA : a ∈ bs) (memberB : b ∈ bs) (freeA : a.free = true) (freeB : b.free = true) :
    a.stop ≠ b.addr := by
  intro meets
  obtain ⟨left, right, rfl⟩ := List.append_of_mem memberA
  obtain ⟨before, behind⟩ := tiled.around
  have positiveA := Block.addr_lt_stop (tiled.bounds memberA).2.2
  have positiveB := Block.addr_lt_stop (tiled.bounds memberB).2.2
  rcases List.mem_append.mp memberB with member | member
  · have := before b member
    omega
  · rcases List.mem_cons.mp member with rfl | member
    · omega
    · cases right with
      | nil => cases member
      | cons c right =>
        have chainR := List.IsChain.right_of_append chain
        simp only [List.isChain_cons_cons, freeA, true_and] at chainR
        rcases List.mem_cons.mp member with rfl | member
        · exact chainR.1 freeB
        · obtain ⟨mid, first, addr, _, addrC, positiveC, rest⟩ := tiled_append.mp tiled
          have := (rest.bounds member).1
          have := Block.addr_lt_stop positiveC
          omega

theorem Kept.sound {L : Layout} {s : State} {live : List Holding} {bs : List Block}
    (kept : Kept L s live bs) : Sound L s live bs := by
  have wf := kept.wf
  constructor
  · exact wf.ring
  · exact nodes_sorted wf.tiled wf.bound
  · exact wf.rover
  · intro a memberA b memberB freeA freeB
    exact adjacent_blocks wf.tiled wf.coalesced memberA memberB freeA freeB
  · exact wf.headers
  · intro x low high
    exact wf.tiled.covers low high
  · intro b member
    obtain ⟨low, high, _⟩ := wf.tiled.bounds member
    exact ⟨low, high⟩
  · exact kept.used
  · have apart : (bs.filter (!·.free)).Pairwise (fun a b => a.stop ≤ b.addr ∨ b.stop ≤ a.addr) :=
      (wf.tiled.pairwise.sublist List.filter_sublist).imp (fun h => .inl h)
    have apart := (List.Perm.pairwise_iff (fun h => h.symm) kept.used).mp apart
    exact List.pairwise_map.mp apart
  · intro h member
    obtain ⟨low, fits⟩ := kept.sizes h member
    have units := unitsOf_eq fits
    simp only [Holding.block, Block.stop, sizeofHeader] at *
    omega

theorem Kept.block_mem {L : Layout} {s : State} {live : List Holding} {bs : List Block}
    (kept : Kept L s live bs) {h : Holding} (held : h ∈ live) : h.block ∈ bs := by
  have member : h.block ∈ bs.filter (!·.free) :=
    kept.used.symm.subset (List.mem_map_of_mem held)
  exact (List.mem_filter.mp member).1

def Invariant (L : Layout) (s : State) (live : List Holding) : Prop :=
  (s.allocp = 0 ∧ s.mdAllocp = L.heapBase ∧ live = []) ∨ ∃ bs, Kept L s live bs

theorem prepared {L : Layout} {s : State} (fresh : s.allocp = 0) (brk : s.mdAllocp = L.heapBase) :
    Wf L (prepare L s) [] := by
  rw [prepare, if_pos fresh]
  have alone : nodes L [] = [L.base] := by
    unfold nodes below above
    split <;> simp
  constructor
  · exact brk.symm
  · simp only [State.setHeader, brk]
    exact L.heap_le
  · simp
  · simp [State.setHeader]
  · rw [alone]
    simp [Circular, State.setHeader]
  · simp [alone]
  · exact List.isChain_nil

theorem Invariant.linked {L : Layout} {s : State} {live : List Holding} (inv : Invariant L s live) :
    ∃ s₀ bs, Kept L s₀ live bs ∧ s₀.mdAllocp = s.mdAllocp ∧
      (∀ fuel nbytes, malloc L fuel s nbytes = malloc L fuel s₀ nbytes) ∧
      (∀ h ∈ live, ∀ x, h.block.addr ≤ x → x < h.block.stop → s₀.mem x = s.mem x) := by
  rcases inv with ⟨fresh, brk, rfl⟩ | ⟨bs, kept⟩
  · have wf := prepared fresh brk
    refine ⟨prepare L s, [], ⟨wf, by simp, by simp⟩, ?_, ?_, by simp⟩
    · rw [prepare, if_pos fresh]
      rfl
    · intro fuel nbytes
      simp only [malloc, prepare_of_linked wf.rover_ne_zero]
  · exact ⟨s, bs, kept, rfl, fun _ _ => rfl, fun _ _ _ _ _ => rfl⟩

structure MallocResult (L : Layout) (s : State) (live : List Holding) (nbytes p : Nat)
    (s' : State) : Prop where
  kept : ∃ bs', Kept L s' (if p = 0 then live else ⟨p, nbytes⟩ :: live) bs'
  untouched : ∀ h ∈ live, ∀ x, h.block.addr ≤ x → x < h.block.stop → s'.mem x = s.mem x
  brk : s.mdAllocp ≤ s'.mdAllocp

theorem Kept.malloc_result {L : Layout} {s : State} {live : List Holding} {bs : List Block}
    (kept : Kept L s live bs) {nbytes : Nat} (fits : Fits s nbytes) :
    ∃ p s' limit, (∀ fuel, limit ≤ fuel → malloc L fuel s nbytes = some (p, s')) ∧
      MallocResult L s live nbytes p s' := by
  obtain ⟨p, s', bs', limit, served, found⟩ := kept.wf.malloc_serves fits
  refine ⟨p, s', limit, found, ?_⟩
  cases served with
  | refused =>
    exact ⟨⟨bs, by simpa using kept⟩, fun _ _ _ _ _ => rfl, Nat.le_refl _⟩
  | handed used untouched brk taken =>
    rename_i s₁ bs₁ u
    obtain ⟨free, size, rfl⟩ := taken.fresh
    have positive : u.addr + sizeofHeader ≠ 0 := by simp [sizeofHeader]
    have same : (⟨u.addr + sizeofHeader, nbytes⟩ : Holding).block = u := by
      cases u
      simp only [Holding.block] at *
      simp [← size, free]
    constructor
    · refine ⟨bs', ?_⟩
      rw [if_neg positive]
      refine ⟨taken.wf, ?_, ?_⟩
      · obtain ⟨front, back, before, after⟩ := taken.used
        rw [after, List.map_cons, same]
        refine (List.perm_middle).trans (List.Perm.cons _ ?_)
        rw [← before, used]
        exact kept.used
      · intro h member
        rcases List.mem_cons.mp member with rfl | member
        · exact ⟨by simp [sizeofHeader], fits.1⟩
        · exact kept.sizes h member
    · intro h member x low high
      have inBs := kept.block_mem member
      have inUsed : h.block ∈ bs₁.filter (!·.free) := by
        rw [used]
        exact List.mem_filter.mpr ⟨inBs, rfl⟩
      rw [taken.untouched _ (List.mem_filter.mp inUsed).1 rfl x low high]
      exact untouched _ inBs rfl x low high
    · rw [taken.brk]
      exact brk

theorem Kept.free_result {L : Layout} {s : State} {live : List Holding} {bs : List Block}
    (kept : Kept L s live bs) {h : Holding} (held : h ∈ live) :
    ∃ s' limit bs', (∀ fuel, limit ≤ fuel → free fuel s h.ptr = some s') ∧
      Kept L s' (live.erase h) bs' := by
  obtain ⟨left, right, split⟩ := List.append_of_mem (kept.block_mem held)
  have wf := kept.wf
  rw [split] at wf
  obtain ⟨s', bs', freed, released⟩ := wf.free_block rfl
  have ptr : h.block.addr + sizeofHeader = h.ptr := by
    have := (kept.sizes h held).1
    simp only [Holding.block]
    omega
  rw [ptr] at freed
  refine ⟨s', _, bs', freed, released.wf, ?_, ?_⟩
  · have used := kept.used
    rw [split] at used
    have used : (h.block :: (left ++ right).filter (!·.free)).Perm
        (h.block :: (live.erase h).map Holding.block) := by
      refine List.Perm.trans ?_ (used.trans ((List.perm_cons_erase held).map Holding.block))
      simp only [List.filter_append]
      rw [List.filter_cons_of_pos (by rfl)]
      exact List.perm_middle.symm
    rw [released.used]
    exact used.cons_inv
  · intro e member
    exact kept.sizes e (List.mem_of_mem_erase member)

theorem Kept.store {L : Layout} {s : State} {live : List Holding} {bs : List Block}
    (kept : Kept L s live bs) {h : Holding} (held : h ∈ live) {a : Nat} (content : Header)
    (low : h.ptr ≤ a) (high : a < h.ptr + h.nbytes) : Kept L (s.setHeader a content) live bs := by
  have sound := kept.sound
  obtain ⟨ptr, room⟩ := sound.holds h held
  have member := kept.block_mem held
  have inside : h.block.addr < a ∧ a < h.block.stop := by
    simp only [sizeofHeader] at ptr
    omega
  have outside := kept.wf.used_outside member rfl (Nat.le_of_lt inside.1) inside.2
  obtain ⟨start, stop, _⟩ := kept.wf.tiled.bounds member
  have bound := kept.wf.bound
  refine ⟨?_, kept.used, kept.sizes⟩
  constructor
  · exact kept.wf.tiled
  · exact bound
  · intro b memberB
    have other : b.addr ≠ a := by
      rintro rfl
      obtain ⟨d, _, unique⟩ := kept.wf.tiled.covers (x := b.addr) (by omega) (by omega)
      have isB := unique b ⟨memberB, Nat.le_refl _,
        Block.addr_lt_stop (kept.wf.tiled.bounds memberB).2.2⟩
      have isH := unique h.block ⟨member, by omega, inside.2⟩
      rw [isB, ← isH] at inside
      omega
    simp only [State.setHeader, Function.update_of_ne other]
    exact kept.wf.headers b memberB
  · simp only [State.setHeader, Function.update_of_ne (base_outside (L := L) (x := a) (by omega) (by omega))]
    exact kept.wf.baseSize
  · refine kept.wf.ring.congr ?_
    intro x memberX
    have other : x ≠ a := fun same => outside (same ▸ memberX)
    simp only [State.setHeader, Function.update_of_ne other]
  · exact kept.wf.rover
  · exact kept.wf.coalesced

theorem free_mono {s s' : State} {fuel fuel' ap : Nat} (ends : free fuel s ap = some s')
    (bound : fuel ≤ fuel') : free fuel' s ap = some s' := by
  unfold free at ends ⊢
  dsimp only at ends ⊢
  cases found : loop (freePass s.mem (wrap (ap + 2^32 - sizeofHeader))) fuel s.allocp with
  | none => rw [found] at ends; cases ends
  | some q =>
    rw [loop_mono found bound (fun _ _ h => h)]
    rw [found] at ends
    exact ends

theorem coremore_mono {L : Layout} {s : State} {fuel fuel' nunits : Nat} {result : Nat × State}
    (ends : coremore L fuel s nunits = some result) (bound : fuel ≤ fuel') :
    coremore L fuel' s nunits = some result := by
  unfold coremore at ends ⊢
  dsimp only at ends ⊢
  split at ends
  · rename_i none
    rw [if_pos none]
    exact ends
  · rename_i some
    rw [if_neg some]
    split at ends
    · cases ends
    · rename_i s' freed
      rw [free_mono freed bound]
      exact ends

theorem malloc_mono {L : Layout} {s : State} {fuel fuel' nbytes : Nat} {result : Nat × State}
    (ends : malloc L fuel s nbytes = some result) (bound : fuel ≤ fuel') :
    malloc L fuel' s nbytes = some result := by
  refine loop_mono ends bound ?_
  intro c pass passed
  unfold mallocPass at passed ⊢
  by_cases large : (c.state.mem c.p).size ≥ unitsOf nbytes
  · rw [if_pos large] at passed ⊢
    exact passed
  · rw [if_neg large] at passed ⊢
    by_cases round : c.p = c.state.allocp
    · rw [if_pos round] at passed ⊢
      cases grown : coremore L fuel c.state (unitsOf nbytes) with
      | none => rw [grown] at passed; cases passed
      | some more =>
        rw [coremore_mono grown bound]
        rw [grown] at passed
        exact passed
    · rw [if_neg round] at passed ⊢
      exact passed

theorem Invariant.malloc {L : Layout} {s : State} {live : List Holding} (inv : Invariant L s live)
    {nbytes : Nat} (fits : Fits s nbytes) :
    ∃ p s' limit, (∀ fuel, limit ≤ fuel → malloc L fuel s nbytes = some (p, s')) ∧
      MallocResult L s live nbytes p s' := by
  obtain ⟨s₀, bs, kept, brk, same, mem⟩ := inv.linked
  obtain ⟨p, s', limit, found, result⟩ := @Kept.malloc_result _ _ _ _ kept nbytes (by
    simpa only [Fits, brk] using fits)
  refine ⟨p, s', limit, fun fuel enough => by rw [same]; exact found fuel enough, result.kept, ?_, ?_⟩
  · intro h member x low high
    rw [result.untouched h member x low high, mem h member x low high]
  · rw [← brk]
    exact result.brk

theorem Reachable.invariant {L : Layout} {s : State} {live : List Holding}
    (run : Reachable L Fits s live) : Invariant L s live := by
  induction run with
  | init mem => exact .inl ⟨rfl, rfl, rfl⟩
  | handed _ admitted result found ih =>
    obtain ⟨p, s', limit, ends, outcome⟩ := ih.malloc admitted
    have same := (malloc_mono result (Nat.le_max_left _ limit)).symm.trans
      (ends _ (Nat.le_max_right _ limit))
    obtain ⟨rfl, rfl⟩ : _ = p ∧ _ = s' := by simpa using same
    obtain ⟨bs, kept⟩ := outcome.kept
    rw [if_neg found] at kept
    exact .inr ⟨bs, kept⟩
  | refused _ admitted result ih =>
    obtain ⟨p, s', limit, ends, outcome⟩ := ih.malloc admitted
    have same := (malloc_mono result (Nat.le_max_left _ limit)).symm.trans
      (ends _ (Nat.le_max_right _ limit))
    obtain ⟨rfl, rfl⟩ : 0 = p ∧ _ = s' := by simpa using same
    obtain ⟨bs, kept⟩ := outcome.kept
    rw [if_pos rfl] at kept
    exact .inr ⟨bs, kept⟩
  | freed _ held result ih =>
    rcases ih with ⟨_, _, rfl⟩ | ⟨bs, kept⟩
    · cases held
    · obtain ⟨s', limit, bs', ends, kept'⟩ := kept.free_result held
      have same := (free_mono result (Nat.le_max_left _ limit)).symm.trans
        (ends _ (Nat.le_max_right _ limit))
      obtain rfl : _ = s' := by simpa using same
      exact .inr ⟨bs', kept'⟩
  | stored _ held low high ih =>
    rcases ih with ⟨_, _, rfl⟩ | ⟨bs, kept⟩
    · cases held
    · exact .inr ⟨bs, kept.store held _ low high⟩

end Embryo.Malloc
