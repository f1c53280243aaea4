import Embryo.Malloc.Take

namespace Embryo.Malloc

open Embryo.Machine

section

variable {L : Layout} {s : State} {bs : List Block} {n : Nat}

theorem mallocPass_small {fuel : Nat} {c : Cursor} (small : (c.state.mem c.p).size < n)
    (other : c.p ≠ c.state.allocp) :
    mallocPass L fuel n c = some (.again ⟨c.state, c.p, (c.state.mem c.p).ptr⟩) := by
  rw [mallocPass, if_neg (by omega), if_neg other]

theorem search_fit (bs : List Block) {q : Nat} {todo : List Nat}
    (chain : List.IsChain (fun a b => (s.mem a).ptr = b) (q :: todo))
    (within : ∀ a ∈ q :: todo, a ∈ nodes L bs) (onward : ∀ a ∈ todo.dropLast, a ≠ s.allocp)
    (fit : ∃ a ∈ todo, n ≤ (s.mem a).size) :
    ∃ q' p', q' ∈ nodes L bs ∧ (s.mem q').ptr = p' ∧ n ≤ (s.mem p').size ∧
      ∀ fuel passes, todo.length ≤ passes →
        loop (mallocPass L fuel n) passes ⟨s, q, (s.mem q).ptr⟩ = some (take s q' p' n) := by
  induction todo generalizing q with
  | nil =>
    obtain ⟨a, member, _⟩ := fit
    cases member
  | cons p todo ih =>
    simp only [List.isChain_cons_cons] at chain
    by_cases fits : n ≤ (s.mem p).size
    · refine ⟨q, p, within q (by simp), chain.1, fits, fun fuel passes enough => ?_⟩
      rw [chain.1]
      refine loop_leave (by simp only [List.length_cons] at enough; omega) ?_
      rw [mallocPass, if_pos fits]
    · obtain ⟨a, member, large⟩ := fit
      have member : a ∈ todo := by
        rcases List.mem_cons.mp member with rfl | member
        · exact absurd large fits
        · exact member
      have more : todo ≠ [] := List.ne_nil_of_mem member
      have drop : (p :: todo).dropLast = p :: todo.dropLast := List.dropLast_cons_of_ne_nil more
      rw [drop] at onward
      obtain ⟨q', p', node, link, fits', found⟩ := ih chain.2
        (fun x memberX => within x (List.mem_cons_of_mem _ memberX))
        (fun x memberX => onward x (List.mem_cons_of_mem _ memberX)) ⟨a, member, large⟩
      refine ⟨q', p', node, link, fits', fun fuel passes enough => ?_⟩
      simp only [List.length_cons] at enough
      obtain ⟨passes, rfl⟩ : ∃ k, passes = k + 1 := ⟨passes - 1, by omega⟩
      have again : mallocPass L fuel n ⟨s, q, p⟩ = some (.again ⟨s, p, (s.mem p).ptr⟩) :=
        mallocPass_small (by simp only; omega) (onward p (by simp))
      rw [chain.1, loop_again again]
      exact found fuel passes (by omega)

theorem search_round {q : Nat} {todo : List Nat}
    (chain : List.IsChain (fun a b => (s.mem a).ptr = b) (q :: (todo ++ [s.allocp])))
    (onward : ∀ a ∈ todo, a ≠ s.allocp) (small : ∀ a ∈ todo, (s.mem a).size < n) :
    ∃ q', ∀ fuel passes, loop (mallocPass L fuel n) (passes + todo.length) ⟨s, q, (s.mem q).ptr⟩ =
      loop (mallocPass L fuel n) passes ⟨s, q', s.allocp⟩ := by
  induction todo generalizing q with
  | nil =>
    simp only [List.nil_append, List.isChain_cons_cons] at chain
    exact ⟨q, fun fuel passes => by rw [chain.1]; rfl⟩
  | cons p todo ih =>
    simp only [List.cons_append, List.isChain_cons_cons] at chain
    obtain ⟨q', arrives⟩ := ih chain.2 (fun a member => onward a (List.mem_cons_of_mem _ member))
      (fun a member => small a (List.mem_cons_of_mem _ member))
    refine ⟨q', fun fuel passes => ?_⟩
    have again : mallocPass L fuel n ⟨s, q, p⟩ = some (.again ⟨s, p, (s.mem p).ptr⟩) :=
      mallocPass_small (small p (by simp)) (onward p (by simp))
    rw [chain.1, List.length_cons, ← Nat.add_assoc, loop_again again, arrives]

theorem Wf.from_rover (wf : Wf L s bs) :
    ∃ todo, List.IsChain (fun a b => (s.mem a).ptr = b) (s.allocp :: (todo ++ [s.allocp])) ∧
      (∀ a ∈ todo, a ≠ s.allocp) ∧ (∀ a, a ∈ nodes L bs ↔ a = s.allocp ∨ a ∈ todo) ∧
      todo.length < (nodes L bs).length := by
  obtain ⟨front, back, split⟩ := List.append_of_mem wf.rover
  have ring := wf.ring
  have nodup := wf.nodup
  rw [split] at ring nodup
  have turned := ring.rotate
  rw [List.cons_append] at turned
  have nodup := List.nodup_append_comm.mp nodup
  rw [List.cons_append, List.nodup_cons] at nodup
  refine ⟨back ++ front, turned, ?_, ?_, ?_⟩
  · rintro a member rfl
    exact nodup.1 member
  · intro a
    rw [split]
    simp only [List.mem_append, List.mem_cons]
    tauto
  · rw [split]
    simp only [List.length_append, List.length_cons]
    omega

theorem Wf.search_serves (wf : Wf L s bs) (positive : 0 < n)
    (fit : ∃ a ∈ nodes L bs, n ≤ (s.mem a).size) :
    ∃ r s' bs' u, Taken L s bs n r s' bs' u ∧
      ∀ fuel passes, (nodes L bs).length ≤ passes →
        loop (mallocPass L fuel n) passes ⟨s, s.allocp, (s.mem s.allocp).ptr⟩ = some (r, s') := by
  obtain ⟨todo, chain, onward, members, count⟩ := wf.from_rover
  obtain ⟨a, member, large⟩ := fit
  have reached : a ∈ todo ++ [s.allocp] := by
    rcases (members a).mp member with rfl | member
    · simp
    · simp [member]
  obtain ⟨q', p', node, link, fits, found⟩ := search_fit (L := L) (n := n) bs chain
    (by
      intro x memberX
      refine (members x).mpr ?_
      simp only [List.mem_cons, List.mem_append, List.not_mem_nil, or_false] at memberX
      tauto)
    (by simpa using onward) ⟨a, reached, large⟩
  obtain ⟨bs', u, taken⟩ := wf.take_fit positive node link fits
  refine ⟨_, _, bs', u, taken, fun fuel passes enough => ?_⟩
  exact found fuel passes (by simp only [List.length_append, List.length_singleton]; omega)

theorem unitsOf_eq {nbytes : Nat} (bound : nbytes + 7 < 2^32) :
    unitsOf nbytes = (nbytes + 7) / 8 + 1 := by
  simp only [unitsOf, wrap, sizeofHeader]
  omega

theorem batchOf_eq (bound : n ≤ 2^29) : batchOf n = (n + 127) / 128 * 128 := by
  simp only [batchOf, wrap, nalloc]
  omega

theorem coremore_exhausted {fuel : Nat} (nowrap : s.mdAllocp + sizeofHeader * batchOf n < 2^32)
    (full : L.heapTop < s.mdAllocp + sizeofHeader * batchOf n) :
    coremore L fuel s n = some (0, s) := by
  have size : wrap (batchOf n * sizeofHeader) = sizeofHeader * batchOf n := by
    rw [Nat.mul_comm]
    exact wrap_of_lt (by omega)
  have sum := wrap_of_lt nowrap
  simp only [coremore, size, mdSbrk, sum,
    if_neg (show ¬ s.mdAllocp + sizeofHeader * batchOf n ≤ L.heapTop by omega)]
  rfl

theorem Wf.extend (wf : Wf L s bs) {size : Nat} (positive : 0 < size)
    (room : s.mdAllocp + sizeofHeader * size ≤ L.heapTop) :
    Wf L ⟨Function.update s.mem s.mdAllocp ⟨(s.mem s.mdAllocp).ptr, size⟩, s.allocp,
      s.mdAllocp + sizeofHeader * size⟩ (bs ++ [⟨s.mdAllocp, size, false⟩]) := by
  have low := wf.tiled.le
  have outside : ∀ x ∈ nodes L bs, x ≠ s.mdAllocp := by
    rintro x member rfl
    rcases node_cases member with base | ⟨b, memberB, _, addr⟩
    · exact base_outside (L := L) low (by omega) base.symm
    · obtain ⟨_, stop, positive⟩ := wf.tiled.bounds memberB
      have := Block.addr_lt_stop positive
      omega
  have shape : nodes L (bs ++ [⟨s.mdAllocp, size, false⟩]) = nodes L bs := by simp [nodes]
  constructor
  · exact tiled_append.mpr ⟨s.mdAllocp, wf.tiled, rfl, positive, rfl⟩
  · exact room
  · intro b member
    rcases List.mem_append.mp member with member | member
    · obtain ⟨_, stop, positive⟩ := wf.tiled.bounds member
      have := Block.addr_lt_stop positive
      simp only
      rw [Function.update_of_ne (by omega)]
      exact wf.headers b member
    · have : b = ⟨s.mdAllocp, size, false⟩ := by simpa using member
      simp [this]
  · simp only
    rw [Function.update_of_ne (base_outside low (by omega))]
    exact wf.baseSize
  · rw [shape]
    refine wf.ring.congr ?_
    intro x member
    simp [outside x member]
  · rw [shape]
    exact wf.rover
  · refine List.isChain_append.mpr ⟨wf.coalesced, List.isChain_singleton _, ?_⟩
    intro x _ y member
    have : y = ⟨s.mdAllocp, size, false⟩ := by simpa using member.symm
    simp [this]

structure Grown (L : Layout) (s : State) (bs : List Block) (n : Nat) (s' : State)
    (bs' : List Block) : Prop where
  wf : Wf L s' bs'
  used : bs'.filter (!·.free) = bs.filter (!·.free)
  fit : ∃ a ∈ nodes L bs', n ≤ (s'.mem a).size
  untouched : Untouched bs s s'
  brk : s.mdAllocp ≤ s'.mdAllocp

theorem Wf.coremore_grows (wf : Wf L s bs) (positive : 0 < n) (small : n ≤ 2^29)
    (room : s.mdAllocp + sizeofHeader * batchOf n ≤ L.heapTop) :
    ∃ s' bs', (∀ fuel, (nodes L bs).length ≤ fuel → coremore L fuel s n = some (s'.allocp, s')) ∧
      Grown L s bs n s' bs' := by
  have top := L.top_lt
  have low := wf.tiled.le
  have base := L.heap_pos
  have batch := batchOf_eq small
  have enough : n ≤ batchOf n ∧ 0 < batchOf n := by omega
  have size : wrap (batchOf n * sizeofHeader) = sizeofHeader * batchOf n := by
    rw [Nat.mul_comm]
    exact wrap_of_lt (by omega)
  have sum : wrap (s.mdAllocp + sizeofHeader * batchOf n) = s.mdAllocp + sizeofHeader * batchOf n :=
    wrap_of_lt (by omega)
  have data : headerAdd s.mdAllocp 1 = s.mdAllocp + sizeofHeader :=
    headerAdd_of_le L.heapTop (by simp only [sizeofHeader] at *; omega) top
  have extended := wf.extend enough.2 room
  obtain ⟨s', bs', freed, released⟩ := @Wf.free_block _ _ bs [] _ extended rfl
  refine ⟨s', bs', fun fuel bound => ?_, ?_⟩
  · have result := freed fuel (by simpa [nodes] using bound)
    simp only [coremore, size, mdSbrk, sum, if_pos room, State.setHeader, data]
    rw [if_neg (by omega), result]
  · constructor
    · exact released.wf
    · simpa using released.used
    · obtain ⟨f, member, free, large⟩ := released.holds
      have header := released.wf.headers f member
      simp only at large
      refine ⟨f.addr, ?_, by omega⟩
      simp only [nodes, List.mem_append]
      exact .inl (.inr (mem_freeAddrs.mpr ⟨f, member, free, rfl⟩))
    · intro c member used x lowX highX
      have kept := released.untouched extended c (by simpa using member) used x lowX highX
      rw [kept]
      obtain ⟨_, stop, _⟩ := wf.tiled.bounds member
      simp only
      rw [Function.update_of_ne (by omega)]
    · rw [released.brk]
      simp only
      omega

/-- `malloc` either has nothing to give and changes nothing, or hands out a new block. -/
inductive Served (L : Layout) (s : State) (bs : List Block) (n : Nat) : Nat → State → List Block → Prop
  | refused : Served L s bs n 0 s bs
  | handed {r : Nat} {s₁ s' : State} {bs₁ bs' : List Block} {u : Block}
      (used : bs₁.filter (!·.free) = bs.filter (!·.free)) (untouched : Untouched bs s s₁)
      (brk : s.mdAllocp ≤ s₁.mdAllocp) (taken : Taken L s₁ bs₁ n r s' bs' u) :
      Served L s bs n r s' bs'

theorem Wf.search_all (wf : Wf L s bs) (positive : 0 < n) (small : n ≤ 2^29)
    (nowrap : s.mdAllocp + sizeofHeader * batchOf n < 2^32) :
    ∃ r s' bs' limit, Served L s bs n r s' bs' ∧
      ∀ fuel, limit ≤ fuel →
        loop (mallocPass L fuel n) fuel ⟨s, s.allocp, (s.mem s.allocp).ptr⟩ = some (r, s') := by
  by_cases fit : ∃ a ∈ nodes L bs, n ≤ (s.mem a).size
  · obtain ⟨r, s', bs', u, taken, found⟩ := wf.search_serves positive fit
    exact ⟨r, s', bs', (nodes L bs).length,
      .handed rfl (fun _ _ _ _ _ _ => rfl) (Nat.le_refl _) taken,
      fun fuel enough => found fuel fuel enough⟩
  · have unfit : ∀ a ∈ nodes L bs, (s.mem a).size < n := by
      intro a member
      by_contra large
      exact fit ⟨a, member, by omega⟩
    obtain ⟨todo, chain, onward, members, count⟩ := wf.from_rover
    obtain ⟨q', arrives⟩ := search_round (L := L) (n := n) chain onward
      (fun a member => unfit a ((members a).mpr (.inr member)))
    have turn : ∀ fuel p s', coremore L fuel s n = some (p, s') → mallocPass L fuel n ⟨s, q', s.allocp⟩ =
        if p = 0 then some (.leave (0, s')) else some (.again ⟨s', p, (s'.mem p).ptr⟩) := by
      intro fuel p s' more
      have := unfit s.allocp wf.rover
      rw [mallocPass, if_neg (by simp only; omega)]
      refine (if_pos rfl).trans ?_
      rw [more]
    by_cases room : s.mdAllocp + sizeofHeader * batchOf n ≤ L.heapTop
    · obtain ⟨s₁, bs₁, grows, grown⟩ := wf.coremore_grows positive small room
      obtain ⟨r, s', bs', u, taken, found⟩ := grown.wf.search_serves positive grown.fit
      refine ⟨r, s', bs', (nodes L bs).length + (nodes L bs₁).length + 1,
        .handed grown.used grown.untouched grown.brk taken, fun fuel enough => ?_⟩
      obtain ⟨passes, rfl⟩ : ∃ passes, fuel = passes + 1 + todo.length :=
        ⟨fuel - 1 - todo.length, by omega⟩
      have again : mallocPass L (passes + 1 + todo.length) n ⟨s, q', s.allocp⟩ =
          some (.again ⟨s₁, s₁.allocp, (s₁.mem s₁.allocp).ptr⟩) := by
        rw [turn _ _ _ (grows _ (by omega)), if_neg grown.wf.rover_ne_zero]
      rw [arrives, loop_again again]
      exact found _ _ (by omega)
    · refine ⟨0, s, bs, todo.length + 1, .refused, fun fuel enough => ?_⟩
      obtain ⟨passes, rfl⟩ : ∃ passes, fuel = passes + 1 + todo.length :=
        ⟨fuel - 1 - todo.length, by omega⟩
      rw [arrives]
      refine loop_leave (by omega) ?_
      rw [turn _ _ _ (coremore_exhausted nowrap (by omega)), if_pos rfl]

def Fits (s : State) (nbytes : Nat) : Prop :=
  nbytes + 7 < 2^32 ∧ s.mdAllocp + sizeofHeader * batchOf (unitsOf nbytes) < 2^32

instance (s : State) (nbytes : Nat) : Decidable (Fits s nbytes) :=
  inferInstanceAs (Decidable (_ ∧ _))

theorem prepare_of_linked (linked : s.allocp ≠ 0) : prepare L s = s := by
  rw [prepare, if_neg linked]

theorem Wf.malloc_serves (wf : Wf L s bs) {nbytes : Nat} (fits : Fits s nbytes) :
    ∃ r s' bs' limit, Served L s bs (unitsOf nbytes) r s' bs' ∧
      ∀ fuel, limit ≤ fuel → malloc L fuel s nbytes = some (r, s') := by
  have units := unitsOf_eq fits.1
  have := fits.1
  obtain ⟨r, s', bs', limit, served, found⟩ :=
    wf.search_all (n := unitsOf nbytes) (by omega) (by omega) fits.2
  refine ⟨r, s', bs', limit, served, fun fuel enough => ?_⟩
  rw [malloc, prepare_of_linked wf.rover_ne_zero]
  exact found fuel enough

end

end Embryo.Malloc
