import Embryo.Malloc.Free

namespace Embryo.Malloc

open Embryo.Machine

def Untouched (bs : List Block) (s s' : State) : Prop :=
  ∀ c ∈ bs, c.free = false → ∀ x, c.addr ≤ x → x < c.stop → s'.mem x = s.mem x

section

variable {L : Layout} {s : State} {bs : List Block}

theorem node_cases {x : Nat} (member : x ∈ nodes L bs) :
    x = L.base ∨ ∃ b ∈ bs, b.free = true ∧ b.addr = x := by
  simp only [nodes, List.mem_append] at member
  rcases member with (member | member) | member
  · exact .inl (mem_below member).1
  · exact .inr (mem_freeAddrs.mp member)
  · exact .inl (mem_above member).1

theorem Wf.used_outside (wf : Wf L s bs) {c : Block} (member : c ∈ bs) (used : c.free = false)
    {x : Nat} (low : c.addr ≤ x) (high : x < c.stop) : x ∉ nodes L bs := by
  intro node
  obtain ⟨start, stop, _⟩ := wf.tiled.bounds member
  have bound := wf.bound
  rcases node_cases node with rfl | ⟨b, memberB, free, rfl⟩
  · exact base_outside (L := L) (x := L.base) (by omega) (by omega) rfl
  · obtain ⟨_, _, positive⟩ := wf.tiled.bounds memberB
    obtain ⟨d, _, unique⟩ := wf.tiled.covers (x := b.addr) (by omega) (by omega)
    have same := unique c ⟨member, low, high⟩
    have same' := unique b ⟨memberB, Nat.le_refl _, Block.addr_lt_stop positive⟩
    rw [same, ← same', free] at used
    cases used

theorem Wf.rover_ne_zero (wf : Wf L s bs) : s.allocp ≠ 0 := by
  intro zero
  rcases node_cases wf.rover with base | ⟨b, member, _, addr⟩
  · have := L.base_pos
    omega
  · have := (wf.tiled.bounds member).1
    have := L.heap_pos
    omega

theorem Wf.nodup (wf : Wf L s bs) : (nodes L bs).Nodup :=
  (nodes_sorted wf.tiled wf.bound).imp (fun h => Nat.ne_of_lt h)

theorem Released.untouched {left right : List Block} {b : Block} {s' : State} {bs' : List Block}
    (wf : Wf L s (left ++ b :: right)) (released : Released L s left right b s' bs') :
    Untouched (left ++ right) s s' := by
  intro c member used x low high
  have memberAll : c ∈ left ++ b :: right := by
    simp only [List.mem_append, List.mem_cons] at member ⊢
    tauto
  refine released.frame x (wf.used_outside memberAll used low high) ?_
  rintro rfl
  obtain ⟨before, behind⟩ := wf.tiled.around
  have positive := Block.addr_lt_stop (wf.tiled.bounds (b := b) (by simp)).2.2
  rcases List.mem_append.mp member with member | member
  · have := before c member
    omega
  · have := behind c member
    omega

/-- The outcome of handing out `n` headers: one new block in use, the others as before. -/
structure Taken (L : Layout) (s : State) (bs : List Block) (n r : Nat) (s' : State)
    (bs' : List Block) (u : Block) : Prop where
  wf : Wf L s' bs'
  fresh : u.free = false ∧ u.size = n ∧ r = u.addr + sizeofHeader
  used : ∃ front back, bs.filter (!·.free) = front ++ back ∧
    bs'.filter (!·.free) = front ++ u :: back
  untouched : Untouched bs s s'
  brk : s'.mdAllocp = s.mdAllocp

end

section

variable {L : Layout} {s : State} {left right : List Block} {b : Block} {q n : Nat}

theorem Wf.predecessor (wf : Wf L s (left ++ b :: right)) (free : b.free = true)
    (node : q ∈ nodes L (left ++ b :: right)) (link : (s.mem q).ptr = b.addr) :
    ∃ rest, upper L right ++ lower L left = rest ++ [q] ∧
      Circular (fun a => (s.mem a).ptr) (q :: b.addr :: rest) := by
  have ring := wf.ring
  have nodup := wf.nodup
  rw [nodes_free free] at ring
  have turned := ring.rotate
  rw [List.cons_append] at turned
  obtain ⟨rest, last, split⟩ : ∃ rest last, upper L right ++ lower L left = rest ++ [last] :=
    ⟨_, _, (List.dropLast_append_getLast (List.ne_nil_of_mem (base_mem_turned L left right))).symm⟩
  rw [split, ← List.cons_append] at turned
  have turned : Circular (fun a => (s.mem a).ptr) (last :: b.addr :: rest) := turned.rotate
  have linkLast : (s.mem last).ptr = b.addr := by
    simp only [Circular, List.cons_append, List.isChain_cons_cons] at turned
    exact turned.1
  have nodeLast : last ∈ nodes L (left ++ b :: right) := by
    have : last ∈ upper L right ++ lower L left := by simp [split]
    rw [nodes_free free]
    simp only [List.mem_append, List.mem_cons] at this ⊢
    tauto
  have same := wf.ring.next_injective nodup node nodeLast (link.trans linkLast.symm)
  subst last
  exact ⟨rest, split, turned⟩

theorem Wf.take_whole (wf : Wf L s (left ++ b :: right)) (free : b.free = true)
    (node : q ∈ nodes L (left ++ b :: right)) (link : (s.mem q).ptr = b.addr) (exact : b.size = n) :
    ∃ bs' u, Taken L s (left ++ b :: right) n (take s q b.addr n).1 (take s q b.addr n).2 bs' u := by
  obtain ⟨rest, split, ring⟩ := wf.predecessor free node link
  obtain ⟨low, high, positive⟩ := wf.tiled.bounds (b := b) (by simp)
  have bound := wf.bound
  have top := L.top_lt
  have nodup : (q :: b.addr :: rest).Nodup := by
    have nodup := wf.nodup
    rw [nodes_free free] at nodup
    have nodup := List.nodup_append_comm.mp nodup
    rw [List.cons_append, split, ← List.cons_append] at nodup
    exact List.nodup_append_comm.mp nodup
  have data : headerAdd b.addr 1 = b.addr + sizeofHeader :=
    headerAdd_of_le L.heapTop (by simp only [Block.stop, sizeofHeader] at *; omega) top
  let u : Block := ⟨b.addr, b.size, false⟩
  have value : take s q b.addr n = (b.addr + sizeofHeader,
      { s.setHeader q ⟨(s.mem b.addr).ptr, (s.mem q).size⟩ with allocp := q }) := by
    rw [take, if_pos (by rw [wf.headers b (by simp)]; exact exact), data]
  refine ⟨left ++ u :: right, u, ?_⟩
  rw [value]
  have shape : nodes L (left ++ u :: right) = lower L left ++ upper L right := nodes_live rfl
  have sizes : ∀ x, (Function.update s.mem q ⟨(s.mem b.addr).ptr, (s.mem q).size⟩ x).size =
      (s.mem x).size := by
    intro x
    by_cases same : x = q
    · simp [same]
    · simp [same]
  constructor
  · constructor
    · obtain ⟨mid, first, second⟩ := tiled_append.mp wf.tiled
      exact tiled_append.mpr ⟨mid, first, second⟩
    · exact bound
    · intro x member
      simp only [State.setHeader, sizes]
      rcases List.mem_append.mp member with member | member
      · exact wf.headers x (by simp [member])
      · rcases List.mem_cons.mp member with rfl | member
        · exact wf.headers b (by simp)
        · exact wf.headers x (by simp [member])
    · simp only [State.setHeader, sizes]
      exact wf.baseSize
    · rw [shape]
      have ring : Circular (fun x => (Function.update s.mem q
          ⟨(s.mem b.addr).ptr, (s.mem q).size⟩ x).ptr) (q :: rest) := by
        refine ring.remove (by simp) ?_
        intro x member
        have other : x ≠ q := by
          rintro rfl
          simp only [List.nodup_cons, List.mem_cons, not_or] at nodup
          exact nodup.1.2 member
        simp [other]
      have ring := ring.turn
      rw [← split] at ring
      exact ring.rotate
    · rw [shape]
      have : q ∈ upper L right ++ lower L left := by simp [split]
      simpa [or_comm] using this
    · refine (List.isChain_append.mpr ?_)
      obtain ⟨chainL, chainR, _⟩ := List.isChain_append.mp wf.coalesced
      refine ⟨chainL, List.isChain_cons.mpr ⟨?_, List.isChain_of_isChain_cons chainR⟩, ?_⟩
      · intro c _
        simp [u]
      · intro x _ y member
        have : y = u := by simpa using member.symm
        simp [this, u]
  · exact ⟨rfl, exact, rfl⟩
  · exact ⟨left.filter (!·.free), right.filter (!·.free), by simp [free], by simp [u]⟩
  · intro c member used x low high
    have outside := wf.used_outside member used low high
    have other : x ≠ q := fun same => outside (same ▸ node)
    simp [State.setHeader, other]
  · rfl

theorem Wf.take_tail (wf : Wf L s (left ++ b :: right)) (free : b.free = true)
    (node : q ∈ nodes L (left ++ b :: right)) (positive : 0 < n) (larger : n < b.size) :
    ∃ bs' u, Taken L s (left ++ b :: right) n (take s q b.addr n).1 (take s q b.addr n).2 bs' u := by
  obtain ⟨low, high, _⟩ := wf.tiled.bounds (b := b) (by simp)
  have bound := wf.bound
  have top := L.top_lt
  have size := wf.headers b (by simp)
  let tail := b.addr + sizeofHeader * (b.size - n)
  have tailEq : headerAdd b.addr (b.size - n) = tail :=
    headerAdd_of_le L.heapTop (by simp only [Block.stop, sizeofHeader] at *; omega) top
  have data : headerAdd tail 1 = tail + sizeofHeader :=
    headerAdd_of_le L.heapTop
      (by simp only [Block.stop, sizeofHeader, tail] at *; omega) top
  have inside : b.addr < tail ∧ tail < b.stop := by
    simp only [Block.stop, sizeofHeader, tail] at *
    omega
  let k : Block := ⟨b.addr, b.size - n, true⟩
  let u : Block := ⟨tail, n, false⟩
  have value : take s q b.addr n = (tail + sizeofHeader,
      { (s.setHeader b.addr ⟨(s.mem b.addr).ptr, b.size - n⟩).setHeader tail
          ⟨(s.mem tail).ptr, n⟩ with allocp := q }) := by
    rw [take, if_neg (by rw [size]; omega)]
    have other : tail ≠ b.addr := by omega
    simp only [size, tailEq, data, State.setHeader, Function.update_of_ne other]
  refine ⟨left ++ k :: u :: right, u, ?_⟩
  rw [value]
  have shape : nodes L (left ++ k :: u :: right) = nodes L (left ++ b :: right) := by
    rw [nodes_free rfl, nodes_free free]
    simp [upper, u, k]
  have ends : u.stop = b.stop := by
    simp only [Block.stop, sizeofHeader, u, tail] at *
    omega
  have tailNode : tail ∉ nodes L (left ++ b :: right) := by
    rw [nodes_free free]
    obtain ⟨lows, highs⟩ := wf.tiled.sides wf.bound
    simp only [List.mem_append, List.mem_cons, not_or]
    refine ⟨fun member => ?_, by omega, fun member => ?_⟩
    · have := lows _ member
      omega
    · have := (highs _ member).1
      omega
  have tiled' : Tiled L.heapBase (left ++ k :: u :: right) s.mdAllocp := by
    obtain ⟨mid, first, addr, _, rest⟩ := tiled_append.mp wf.tiled
    refine tiled_append.mpr ⟨mid, first, addr, by simp only [k]; omega, rfl, positive, ?_⟩
    rw [ends]
    exact rest
  constructor
  · constructor
    · exact tiled'
    · exact bound
    · intro x member
      simp only [State.setHeader]
      by_cases atTail : x.addr = tail
      · have unique := tiled'.covers (x := tail) (by omega) (by omega)
        obtain ⟨d, _, unique⟩ := unique
        have isX := unique x ⟨member, by omega, by
          have := Block.addr_lt_stop (tiled'.bounds member).2.2
          omega⟩
        have isU := unique u ⟨by simp, Nat.le_refl _, by omega⟩
        rw [isX, ← isU]
        simp [u]
      · rw [Function.update_of_ne atTail]
        by_cases atHead : x.addr = b.addr
        · have unique := tiled'.covers (x := b.addr) (by omega) (by omega)
          obtain ⟨d, _, unique⟩ := unique
          have isX := unique x ⟨member, by omega, by
            have := Block.addr_lt_stop (tiled'.bounds member).2.2
            omega⟩
          have isK := unique k ⟨by simp, Nat.le_refl _, by
            simp only [Block.stop, sizeofHeader, k]
            omega⟩
          rw [isX, ← isK]
          simp [k]
        · rw [Function.update_of_ne atHead]
          rcases List.mem_append.mp member with member | member
          · exact wf.headers x (by simp [member])
          · rcases List.mem_cons.mp member with rfl | member
            · exact absurd rfl atHead
            · rcases List.mem_cons.mp member with rfl | member
              · exact absurd rfl atTail
              · exact wf.headers x (by simp [member])
    · have outTail := base_outside (L := L) (x := tail) (by omega) (by omega)
      have outHead := base_outside (L := L) (x := b.addr) (by omega) (by omega)
      simp only [State.setHeader, Function.update_of_ne outTail, Function.update_of_ne outHead]
      exact wf.baseSize
    · rw [shape]
      refine wf.ring.congr ?_
      intro x member
      have neqTail : x ≠ tail := fun same => tailNode (same ▸ member)
      simp only [State.setHeader, Function.update_of_ne neqTail]
      by_cases atHead : x = b.addr
      · simp [atHead]
      · simp [atHead]
    · rw [shape]
      exact node
    · obtain ⟨chainL, chainR, link⟩ := List.isChain_append.mp wf.coalesced
      refine List.isChain_append.mpr ⟨chainL, ?_, ?_⟩
      · refine List.isChain_cons_cons.mpr
          ⟨by simp [u], List.isChain_cons.mpr ⟨?_, List.isChain_of_isChain_cons chainR⟩⟩
        intro c _
        simp [u]
      · intro x memberX y memberY
        have : y = k := by simpa using memberY.symm
        subst y
        have := link x memberX b (by simp)
        simpa [free, k] using this
  · exact ⟨rfl, rfl, rfl⟩
  · exact ⟨left.filter (!·.free), right.filter (!·.free), by simp [free], by simp [u, k]⟩
  · intro c member used x low' high'
    have apart : ∀ y, b.addr ≤ y → y < b.stop → x ≠ y := by
      rintro y lowY highY rfl
      obtain ⟨d, _, unique⟩ := wf.tiled.covers (x := x) (by omega) (by omega)
      have isC := unique c ⟨member, low', high'⟩
      have isB := unique b ⟨by simp, lowY, highY⟩
      rw [isC, ← isB, free] at used
      cases used
    simp only [State.setHeader]
    rw [Function.update_of_ne (apart tail (by omega) inside.2),
      Function.update_of_ne (apart b.addr (Nat.le_refl _) (by omega))]
  · rfl

theorem Wf.take_fit {bs : List Block} {p : Nat} (wf : Wf L s bs) (positive : 0 < n) (node : q ∈ nodes L bs)
    (link : (s.mem q).ptr = p) (fits : n ≤ (s.mem p).size) :
    ∃ bs' u, Taken L s bs n (take s q p n).1 (take s q p n).2 bs' u := by
  have nodeP : p ∈ nodes L bs := link ▸ wf.ring.next_mem node
  rcases node_cases nodeP with rfl | ⟨b, member, free, rfl⟩
  · rw [wf.baseSize] at fits
    omega
  · obtain ⟨left, right, rfl⟩ := List.append_of_mem member
    rw [wf.headers b member] at fits
    rcases Nat.lt_or_eq_of_le fits with larger | exact
    · exact wf.take_tail free node positive larger
    · exact wf.take_whole free node link exact.symm

end

end Embryo.Malloc
