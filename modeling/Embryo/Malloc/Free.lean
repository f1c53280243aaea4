import Embryo.Malloc.Blocks

namespace Embryo.Malloc

open Embryo.Machine

/-- The allocator's invariant: the blocks tile the memory obtained so far, the headers
    carry their sizes, and the free ones with `base` form one coalesced ring. -/
structure Wf (L : Layout) (s : State) (bs : List Block) : Prop where
  tiled : Tiled L.heapBase bs s.mdAllocp
  bound : s.mdAllocp ≤ L.heapTop
  headers : ∀ b ∈ bs, (s.mem b.addr).size = b.size
  baseSize : (s.mem L.base).size = 0
  ring : Circular (fun a => (s.mem a).ptr) (nodes L bs)
  rover : s.allocp ∈ nodes L bs
  coalesced : bs.IsChain (fun a b => ¬ (a.free = true ∧ b.free = true))

theorem turned_order {left right : List Nat} {p : Nat} (sorted : (left ++ right).Pairwise (· < ·))
    (lefts : ∀ x ∈ left, x < p) (rights : ∀ x ∈ right, p < x) :
    (right ++ left).IsChain
      (fun a b => (p < a ∧ a < b) ∨ (a < b ∧ b < p) ∨ (b < p ∧ p < a)) := by
  obtain ⟨sortedLeft, sortedRight, _⟩ := List.pairwise_append.mp sorted
  refine List.IsChain.append ?_ ?_ ?_
  · refine (List.Pairwise.imp_of_mem ?_ sortedRight).isChain
    intro a b memberA _ less
    exact .inl ⟨rights a memberA, less⟩
  · refine (List.Pairwise.imp_of_mem ?_ sortedLeft).isChain
    intro a b _ memberB less
    exact .inr (.inl ⟨less, lefts b memberB⟩)
  · intro a memberA b memberB
    exact .inr (.inr ⟨lefts b (List.mem_of_mem_head? memberB),
      rights a (List.mem_of_mem_getLast? memberA)⟩)

theorem free_search {mem : Nat → Header} {left right : List Nat} {p start : Nat}
    (ring : Circular (fun a => (mem a).ptr) (left ++ right))
    (sorted : (left ++ right).Pairwise (· < ·)) (lefts : ∀ x ∈ left, x < p)
    (rights : ∀ x ∈ right, p < x) (member : start ∈ left ++ right) :
    ∃ rest q, right ++ left = rest ++ [q] ∧
      ∀ fuel, rest.length < fuel → loop (freePass mem p) fuel start = some q := by
  have member' : start ∈ right ++ left := by simpa [or_comm] using member
  obtain ⟨rest, q, split⟩ : ∃ rest q, right ++ left = rest ++ [q] :=
    ⟨_, _, (List.dropLast_append_getLast (List.ne_nil_of_mem member')).symm⟩
  refine ⟨rest, q, split, fun fuel bound => ?_⟩
  have order := turned_order sorted lefts rights
  have turned := ring.rotate
  rw [split] at order turned member'
  have closed : List.IsChain (fun a b => (mem a).ptr = b) (q :: (rest ++ [q])) := turned.rotate
  refine loop_to_end ?_ ?_ member' bound
  · have links := List.isChain_of_isChain_cons closed
    rw [List.isChain_iff_getElem] at order links ⊢
    intro i inside
    have compared := order i inside
    have linked := links i inside
    simp only [freePass, linked]
    rw [if_neg (by omega), if_neg (by omega)]
  · have memberQ : q ∈ right ++ left := by simp [split]
    rw [← split] at closed
    cases right with
    | cons r right =>
      simp only [List.cons_append, List.isChain_cons_cons] at closed
      have above := rights r (by simp)
      simp only [freePass, closed.1]
      by_cases below : q < p
      · rw [if_pos ⟨below, above⟩]
      · have le : r ≤ q := by
          rcases List.mem_append.mp memberQ with memberQ | memberQ
          · rcases List.mem_cons.mp memberQ with rfl | memberQ
            · omega
            · have := (List.pairwise_cons.mp (List.pairwise_append.mp sorted).2.1).1 q memberQ
              omega
          · have := lefts q memberQ
            omega
        rw [if_neg (by omega), if_pos (by omega)]
    | nil =>
      cases left with
      | nil => simp at memberQ
      | cons head left =>
        simp only [List.nil_append, List.isChain_cons_cons] at closed
        have below := lefts q (by simpa using memberQ)
        have le : head ≤ q := by
          rcases List.mem_cons.mp (by simpa using memberQ) with rfl | memberQ
          · omega
          · simp only [List.append_nil] at sorted
            have := (List.pairwise_cons.mp sorted).1 q memberQ
            omega
        have := lefts head (by simp)
        simp only [freePass, closed.1]
        rw [if_neg (by omega), if_pos (by omega)]

def lower (L : Layout) (left : List Block) : List Nat := below L ++ freeAddrs left
def upper (L : Layout) (right : List Block) : List Nat := freeAddrs right ++ above L

theorem nodes_live {L : Layout} {left right : List Block} {b : Block} (live : b.free = false) :
    nodes L (left ++ b :: right) = lower L left ++ upper L right := by
  simp [nodes, lower, upper, live]

theorem nodes_free {L : Layout} {left right : List Block} {b : Block} (free : b.free = true) :
    nodes L (left ++ b :: right) = lower L left ++ b.addr :: upper L right := by
  simp [nodes, lower, upper, free]

theorem base_mem_turned (L : Layout) (left right : List Block) :
    L.base ∈ upper L right ++ lower L left := by
  have := base_mem_ends L []
  simp only [List.append_nil, List.mem_append] at this
  simp only [lower, upper, List.mem_append]
  tauto

theorem Tiled.sides {L : Layout} {left right : List Block} {b : Block} {hi : Nat}
    (tiled : Tiled L.heapBase (left ++ b :: right) hi) (bound : hi ≤ L.heapTop) :
    (∀ x ∈ lower L left, x < b.addr) ∧ (∀ x ∈ upper L right, b.stop ≤ x ∧ b.addr < x) := by
  obtain ⟨before, behind⟩ := tiled.around
  obtain ⟨low, high, positive⟩ := tiled.bounds (b := b) (by simp)
  have less := Block.addr_lt_stop positive
  constructor
  · intro x member
    rcases List.mem_append.mp member with member | member
    · have := (mem_below member).2
      omega
    · obtain ⟨a, memberA, _, rfl⟩ := mem_freeAddrs.mp member
      have := before a memberA
      have := Block.addr_lt_stop (tiled.bounds (b := a) (by simp [memberA])).2.2
      omega
  · intro x member
    rcases List.mem_append.mp member with member | member
    · obtain ⟨c, memberC, _, rfl⟩ := mem_freeAddrs.mp member
      have := behind c memberC
      omega
    · have := (mem_above member).2
      omega

theorem headerAdd_of_le (top : Nat) {p n : Nat} (le : p + sizeofHeader * n ≤ top) (bound : top < 2^32) :
    headerAdd p n = p + sizeofHeader * n := wrap_of_lt (by omega)

section Release

variable {L : Layout} {s : State} {left right : List Block} {b : Block} {rest : List Nat} {q : Nat}

/-- What the first `if` of `free` leaves behind: `m` is the block grown upwards, `q` is
    still to be linked, and the ring is the one that skips whatever was swallowed. -/
structure Joined (L : Layout) (s : State) (left right : List Block) (b : Block) (q : Nat)
    (mem : Nat → Header) (m : Block) (right' : List Block) (rest' : List Nat) : Prop where
  addr : m.addr = b.addr
  live : m.free = false
  size : b.size ≤ m.size
  tiled : Tiled L.heapBase (left ++ m :: right') s.mdAllocp
  turned : upper L right' ++ lower L left = rest' ++ [q]
  ring : Circular (fun a => if a = q then (mem b.addr).ptr else (mem a).ptr) (q :: rest')
  header : (mem b.addr).size = m.size
  frame : ∀ x, x ≠ b.addr → mem x = s.mem x
  part : right'.Sublist right
  used : right'.filter (!·.free) = right.filter (!·.free)
  apart : ∀ c ∈ right'.head?, c.free = false
  coalesced : right'.IsChain (fun a b => ¬ (a.free = true ∧ b.free = true))

theorem Wf.ring_turned (wf : Wf L s (left ++ b :: right)) (live : b.free = false)
    (turned : upper L right ++ lower L left = rest ++ [q]) :
    Circular (fun a => (s.mem a).ptr) (q :: rest) := by
  have ring := wf.ring
  rw [nodes_live live] at ring
  have ring := ring.rotate
  rw [turned] at ring
  exact ring.rotate

theorem Wf.stop_eq (wf : Wf L s (left ++ b :: right)) :
    headerAdd b.addr (s.mem b.addr).size = b.stop := by
  rw [wf.headers b (by simp)]
  exact headerAdd_of_le _ (wf.tiled.bounds (b := b) (by simp)).2.1
    (Nat.lt_of_le_of_lt wf.bound L.top_lt)

theorem Wf.join_upper (wf : Wf L s (left ++ b :: right)) (live : b.free = false)
    (turned : upper L right ++ lower L left = rest ++ [q]) :
    ∃ m right' rest', Joined L s left right b q (joinUpper s.mem q b.addr) m right' rest' := by
  have ring := wf.ring_turned live turned
  obtain ⟨lows, highs⟩ := wf.tiled.sides wf.bound
  have fresh : ∀ x ∈ q :: rest, x ≠ b.addr := by
    intro x member same
    have member : x ∈ upper L right ++ lower L left := by
      rw [turned]; simpa [or_comm] using member
    rcases List.mem_append.mp member with member | member
    · have := (highs x member).2
      omega
    · have := lows x member
      omega
  have chain := List.IsChain.right_of_append wf.coalesced
  by_cases joins : ∃ c right', right = c :: right' ∧ c.free = true
  · obtain ⟨c, right', rfl, free⟩ := joins
    obtain ⟨mid, first, second⟩ := tiled_append.mp wf.tiled
    obtain ⟨addr, positive, next, positiveC, tail⟩ := second
    have head : upper L (c :: right') = c.addr :: upper L right' := by simp [upper, free]
    rw [head, List.cons_append] at turned
    obtain ⟨rest', rfl⟩ : ∃ rest', rest = c.addr :: rest' := by
      cases rest with
      | nil =>
        have empty : upper L right' ++ lower L left = [] := by simpa using (List.cons.inj turned).2
        have := base_mem_turned L left right'
        rw [empty] at this
        cases this
      | cons a rest' => exact ⟨rest', by rw [(List.cons.inj turned).1]⟩
    have link : (s.mem q).ptr = c.addr := by
      simp only [Circular, List.cons_append, List.isChain_cons_cons] at ring
      exact ring.1
    have meets : headerAdd b.addr (s.mem b.addr).size = (s.mem q).ptr := by
      rw [wf.stop_eq, link, next]
    have size : wrap ((s.mem b.addr).size + (s.mem c.addr).size) = b.size + c.size := by
      rw [wf.headers b (by simp), wf.headers c (by simp)]
      apply wrap_of_lt
      have := tail.le
      have := wf.bound
      have := L.top_lt
      simp only [Block.stop, sizeofHeader] at *
      omega
    have value : joinUpper s.mem q b.addr =
        Function.update s.mem b.addr ⟨(s.mem c.addr).ptr, b.size + c.size⟩ := by
      rw [joinUpper, if_pos meets, link, size]
    refine ⟨⟨b.addr, b.size + c.size, false⟩, right', rest', ?_⟩
    rw [value]
    constructor
    · rfl
    · rfl
    · simp
    · refine tiled_append.mpr ⟨mid, first, addr, by simp; omega, ?_⟩
      have same : (⟨b.addr, b.size + c.size, false⟩ : Block).stop = c.stop := by
        simp only [Block.stop, sizeofHeader] at *
        omega
      rw [same]
      exact tail
    · exact (List.cons.inj turned).2
    · refine ring.remove (by simp) ?_
      intro a member
      have neq := fresh a (by simp [member])
      by_cases same : a = q
      · subst a
        have nodup : (q :: c.addr :: rest').Nodup := by
          have sorted := nodes_sorted wf.tiled wf.bound
          rw [nodes_live live] at sorted
          have nodup := List.nodup_append_comm.mp (sorted.imp (fun h => Nat.ne_of_lt h))
          rw [head, List.cons_append, turned] at nodup
          exact List.nodup_append_comm.mp nodup
        simp only [List.nodup_cons, List.mem_cons, not_or] at nodup
        exact absurd member nodup.1.2
      · simp [same, neq]
    · simp
    · intro x neq
      simp [neq]
    · exact List.sublist_cons_self _ _
    · simp [free]
    · intro d member
      have := (List.isChain_cons.mp (List.isChain_of_isChain_cons chain)).1 d member
      simpa [free] using this
    · exact List.isChain_of_isChain_cons (List.isChain_of_isChain_cons chain)
  · have misses : headerAdd b.addr (s.mem b.addr).size ≠ (s.mem q).ptr := by
      rw [wf.stop_eq]
      intro same
      have member := ring.next_mem (a := q) (by simp)
      have member : (s.mem q).ptr ∈ upper L right ++ lower L left := by
        rw [turned]; simpa [or_comm] using member
      rw [← same] at member
      have less := Block.addr_lt_stop (wf.tiled.bounds (b := b) (by simp)).2.2
      rcases List.mem_append.mp member with member | member
      · rcases List.mem_append.mp member with member | member
        · obtain ⟨c, memberC, free, addr⟩ := mem_freeAddrs.mp member
          cases right with
          | nil => cases memberC
          | cons d right =>
            rcases List.mem_cons.mp memberC with rfl | memberC
            · exact joins ⟨_, _, rfl, free⟩
            · obtain ⟨mid, first, second⟩ := tiled_append.mp wf.tiled
              obtain ⟨_, _, next, positive, tail⟩ := second
              have := (tail.bounds memberC).1
              have := Block.addr_lt_stop positive
              omega
        · have := (mem_above member).2
          have := (wf.tiled.bounds (b := b) (by simp)).2.1
          have := wf.bound
          omega
      · have := lows _ member
        omega
    refine ⟨b, right, rest, ?_⟩
    rw [joinUpper, if_neg misses]
    constructor
    · rfl
    · exact live
    · exact Nat.le_refl _
    · exact wf.tiled
    · exact turned
    · refine ring.congr ?_
      intro a member
      have neq := fresh a member
      by_cases same : a = q
      · simp [same]
      · simp [same, neq]
    · simpa using wf.headers b (by simp)
    · intro x neq
      simp [neq]
    · exact List.Sublist.refl _
    · rfl
    · intro c member
      by_contra free
      have free : c.free = true := by simpa using free
      cases right with
      | nil => simp at member
      | cons d right =>
        have : d = c := by simpa using member
        subst d
        exact joins ⟨_, _, rfl, free⟩
    · exact List.isChain_of_isChain_cons chain

/-- The outcome of releasing `b`: the other blocks in use are the same, and some free
    block has taken in all of `b`. -/
structure Released (L : Layout) (s : State) (left right : List Block) (b : Block)
    (s' : State) (bs' : List Block) : Prop where
  wf : Wf L s' bs'
  used : bs'.filter (!·.free) = (left ++ right).filter (!·.free)
  holds : ∃ f ∈ bs', f.free = true ∧ b.size ≤ f.size
  frame : ∀ x, x ∉ nodes L (left ++ b :: right) → x ≠ b.addr → s'.mem x = s.mem x
  brk : s'.mdAllocp = s.mdAllocp

variable {mem : Nat → Header} {m : Block} {right' : List Block} {rest' : List Nat}

theorem Joined.q_ne (j : Joined L s left right b q mem m right' rest') (bound : s.mdAllocp ≤ L.heapTop) :
    q ≠ b.addr := by
  intro same
  obtain ⟨lows, highs⟩ := j.tiled.sides bound
  have member : q ∈ upper L right' ++ lower L left := by simp [j.turned]
  rw [j.addr] at lows highs
  rcases List.mem_append.mp member with member | member
  · have := (highs q member).2
    omega
  · have := lows q member
    omega

theorem Joined.join_below (wf : Wf L s (left ++ b :: right))
    (live : b.free = false) (j : Joined L s left right b q mem m right' rest')
    {left' : List Block} {a : Block} (shape : left = left' ++ [a]) (free : a.free = true) :
    ∃ bs', Released L s left right b { s with mem := joinLower mem q b.addr, allocp := q } bs' := by
  subst left
  have turned := j.turned
  have last : q = a.addr := by
    simp only [lower, freeAddrs_append, freeAddrs_cons, free, if_true, freeAddrs_nil,
      ← List.append_assoc] at turned
    exact (List.append_inj' turned rfl).2 |> List.cons.inj |>.1.symm
  have neq := j.q_ne wf.bound
  obtain ⟨mid, first, second⟩ := tiled_append.mp j.tiled
  obtain ⟨start, first, addr, positive, stop⟩ := tiled_append.mp first
  obtain ⟨addrM, positiveM, tail⟩ := second
  have sizeQ : (mem q).size = a.size := by
    rw [j.frame q neq, last]
    exact wf.headers a (by simp)
  have limit := tail.le
  have bound := wf.bound
  have top := L.top_lt
  have addrB := j.addr
  simp only [Tiled] at stop
  have meets : headerAdd q (mem q).size = b.addr := by
    rw [sizeQ, last, headerAdd_of_le L.heapTop _ top]
    · simp only [Block.stop] at stop
      omega
    · simp only [Block.stop, sizeofHeader] at *
      omega
  have size : wrap ((mem q).size + (mem b.addr).size) = a.size + m.size := by
    rw [sizeQ, j.header]
    apply wrap_of_lt
    simp only [Block.stop, sizeofHeader] at *
    omega
  have value : joinLower mem q b.addr =
      Function.update mem q ⟨(mem b.addr).ptr, a.size + m.size⟩ := by
    rw [joinLower, if_pos meets, size]
  let f : Block := ⟨a.addr, a.size + m.size, true⟩
  have shape : nodes L (left' ++ f :: right') = lower L (left' ++ [a]) ++ upper L right' := by
    simp [nodes, lower, upper, f, free]
  have stopF : f.stop = m.stop := by
    simp only [Block.stop, sizeofHeader, f] at *
    omega
  have tiledF : Tiled L.heapBase (left' ++ f :: right') s.mdAllocp := by
    refine tiled_append.mpr ⟨start, first, addr, ?_, ?_⟩
    · simp only [f]; omega
    · rw [stopF]; exact tail
  refine ⟨left' ++ f :: right', ?_⟩
  rw [value]
  constructor
  · constructor
    · exact tiledF
    · exact bound
    · intro x member
      have other : ∀ y ∈ left' ++ right', y.addr ≠ q → y.addr ≠ b.addr → y ∈ (left' ++ [a]) ++ b :: right →
          (Function.update mem q ⟨(mem b.addr).ptr, a.size + m.size⟩ y.addr).size = y.size := by
        intro y _ neqQ neqB origin
        rw [Function.update_of_ne neqQ, j.frame _ neqB]
        exact wf.headers y origin
      obtain ⟨before, behind⟩ := tiledF.around
      rcases List.mem_append.mp member with memberL | memberR
      · refine other x (by simp [memberL]) ?_ ?_ (by simp [memberL])
        · have := before x memberL
          have := Block.addr_lt_stop (tiledF.bounds member).2.2
          simp only [f] at *
          omega
        · have := before x memberL
          have := Block.addr_lt_stop (tiledF.bounds member).2.2
          simp only [f, Block.stop, sizeofHeader] at *
          omega
      · rcases List.mem_cons.mp memberR with rfl | memberR
        · simp [f, last]
        · have := behind x memberR
          have := j.part.subset memberR
          refine other x (by simp [memberR]) ?_ ?_ (by simp [this])
          · have := Block.addr_lt_stop (b := f) (by simp only [f]; omega)
            simp only [f] at *
            omega
          · have := Block.addr_lt_stop positiveM
            omega
    · have outside := base_outside (L := L) (x := q) (by
        have := first.le
        omega) (by
        simp only [Block.stop, sizeofHeader] at *
        omega)
      have outsideB := base_outside (L := L) (x := b.addr) (by
        have := (wf.tiled.bounds (b := b) (by simp)).1
        omega) (by
        have := (wf.tiled.bounds (b := b) (by simp)).2.1
        simp only [Block.stop] at this
        omega)
      simp only [Function.update_of_ne outside, j.frame _ outsideB]
      exact wf.baseSize
    · rw [shape]
      have ring : Circular (fun x => (Function.update mem q
          ⟨(mem b.addr).ptr, a.size + m.size⟩ x).ptr) (q :: rest') := by
        refine j.ring.congr ?_
        intro x _
        by_cases same : x = q
        · simp [same]
        · simp [same]
      have ring := ring.turn
      rw [← turned] at ring
      exact ring.rotate
    · rw [shape]
      have : q ∈ upper L right' ++ lower L (left' ++ [a]) := by simp [turned]
      simpa [or_comm] using this
    · have chain := wf.coalesced
      rw [List.append_assoc, List.singleton_append] at chain
      obtain ⟨chainL, _⟩ := List.isChain_split.mp chain
      obtain ⟨part, _, link⟩ := List.isChain_append.mp chainL
      refine List.isChain_append.mpr ⟨part, ?_, ?_⟩
      · refine List.isChain_cons.mpr ⟨?_, j.coalesced⟩
        intro c member
        simp [j.apart c member]
      · intro x memberX y memberY
        have same : y = f := by simpa using memberY.symm
        subst y
        have := link x memberX a (by simp)
        simpa [free, f] using this
  · simp [f, free, j.used]
  · exact ⟨f, by simp, rfl, by have := j.size; simp only [f]; omega⟩
  · intro x outside neqB
    have neqQ : x ≠ q := by
      rintro rfl
      apply outside
      rw [nodes_live live]
      simp [lower, free, last]
    simp only [Function.update_of_ne neqQ]
    exact j.frame x neqB
  · rfl

theorem Joined.q_mem (j : Joined L s left right b q mem m right' rest') :
    q ∈ upper L right' ++ lower L left := by simp [j.turned]

theorem Joined.misses (wf : Wf L s (left ++ b :: right))
    (j : Joined L s left right b q mem m right' rest')
    (alone : ∀ a ∈ left.getLast?, a.free = false) : headerAdd q (mem q).size ≠ b.addr := by
  have neq := j.q_ne wf.bound
  have bound := wf.bound
  have top := L.top_lt
  have addrB := j.addr
  obtain ⟨mid, first, second⟩ := tiled_append.mp j.tiled
  obtain ⟨addrM, positiveM, tail⟩ := second
  have limit := tail.le
  have member := j.q_mem
  have atBase : q = L.base → headerAdd q (mem q).size ≠ b.addr := by
    intro same
    have zero : (mem q).size = 0 := by rw [j.frame q neq, same, wf.baseSize]
    rw [zero, headerAdd]
    simp only [Nat.mul_zero, Nat.add_zero]
    rw [wrap]
    have outside := base_outside (L := L) (x := b.addr) (by
      have := first.le
      omega) (by
      simp only [Block.stop, sizeofHeader] at *
      omega)
    have apart := L.apart
    simp only [sizeofHeader] at apart
    rcases apart with low | high
    · have := L.heap_le
      rw [Nat.mod_eq_of_lt (by omega)]
      omega
    · by_cases small : q < 2^32
      · rw [Nat.mod_eq_of_lt small]; omega
      · exact absurd L.base_lt (by omega)
  rcases List.mem_append.mp member with member | member
  · rcases List.mem_append.mp member with member | member
    · obtain ⟨c, memberC, _, addr⟩ := mem_freeAddrs.mp member
      obtain ⟨low, high, positive⟩ := tail.bounds memberC
      have size : (mem q).size = c.size := by
        rw [j.frame q neq, ← addr]
        exact wf.headers c (by simp [j.part.subset memberC])
      rw [size, ← addr, headerAdd_of_le L.heapTop (by simp only [Block.stop] at high; omega) top]
      have := Block.addr_lt_stop positiveM
      omega
    · exact atBase (mem_above member).1
  · rcases List.mem_append.mp member with member | member
    · exact atBase (mem_below member).1
    · obtain ⟨a, memberA, free, addr⟩ := mem_freeAddrs.mp member
      obtain ⟨front, back, rfl⟩ := List.append_of_mem memberA
      have size : (mem q).size = a.size := by
        rw [j.frame q neq, ← addr]
        exact wf.headers a (by simp)
      obtain ⟨start, _, addrA, positiveA, between⟩ := tiled_append.mp first
      cases back with
      | nil => simp [free] at alone
      | cons d back =>
        obtain ⟨addrD, positiveD, between⟩ := between
        have := between.le
        have := Block.addr_lt_stop positiveD
        have : a.stop < b.addr := by omega
        rw [size, ← addr, headerAdd_of_le L.heapTop _ top]
        · simp only [Block.stop] at this
          omega
        · simp only [Block.stop, sizeofHeader] at *
          omega

theorem Joined.link_beside (wf : Wf L s (left ++ b :: right)) (live : b.free = false)
    (j : Joined L s left right b q mem m right' rest') (alone : ∀ a ∈ left.getLast?, a.free = false) :
    ∃ bs', Released L s left right b { s with mem := joinLower mem q b.addr, allocp := q } bs' := by
  have neq := j.q_ne wf.bound
  have value : joinLower mem q b.addr = Function.update mem q ⟨b.addr, (mem q).size⟩ := by
    rw [joinLower, if_neg (j.misses wf alone)]
  let f : Block := ⟨m.addr, m.size, true⟩
  have shape : nodes L (left ++ f :: right') = lower L left ++ b.addr :: upper L right' := by
    rw [nodes_free rfl]
    simp only [f, j.addr]
  have tiledF : Tiled L.heapBase (left ++ f :: right') s.mdAllocp := by
    obtain ⟨mid, first, second⟩ := tiled_append.mp j.tiled
    exact tiled_append.mpr ⟨mid, first, second⟩
  have sizes : ∀ x, (Function.update mem q ⟨b.addr, (mem q).size⟩ x).size = (mem x).size := by
    intro x
    by_cases same : x = q
    · simp [same]
    · simp [same]
  refine ⟨left ++ f :: right', ?_⟩
  rw [value]
  constructor
  · constructor
    · exact tiledF
    · exact wf.bound
    · intro x member
      simp only [sizes]
      obtain ⟨before, behind⟩ := tiledF.around
      have positive := Block.addr_lt_stop (tiledF.bounds member).2.2
      have positiveF := Block.addr_lt_stop (tiledF.bounds (b := f) (by simp)).2.2
      have addrF : f.addr = b.addr := j.addr
      rcases List.mem_append.mp member with memberL | memberR
      · have := before x memberL
        rw [j.frame _ (by omega)]
        exact wf.headers x (by simp [memberL])
      · rcases List.mem_cons.mp memberR with rfl | memberR
        · rw [addrF]
          exact j.header
        · have := behind x memberR
          rw [j.frame _ (by omega)]
          exact wf.headers x (by simp [j.part.subset memberR])
    · simp only [sizes]
      obtain ⟨low, high, _⟩ := wf.tiled.bounds (b := b) (by simp)
      have outside := base_outside (L := L) (x := b.addr) low (by
        have := wf.bound
        simp only [Block.stop] at high
        omega)
      rw [j.frame _ outside]
      exact wf.baseSize
    · rw [shape]
      have nodup : (q :: rest').Nodup := by
        have sorted := nodes_sorted j.tiled wf.bound
        rw [nodes_live j.live] at sorted
        have nodup := List.nodup_append_comm.mp (sorted.imp (fun h => Nat.ne_of_lt h))
        rw [j.turned] at nodup
        exact List.nodup_append_comm.mp nodup
      have ring : Circular (fun x => (Function.update mem q ⟨b.addr, (mem q).size⟩ x).ptr)
          (q :: b.addr :: rest') := by
        refine j.ring.insert (by simp) (by simp [Ne.symm neq]) ?_
        intro x member
        have other : x ≠ q := by
          rintro rfl
          exact (List.nodup_cons.mp nodup).1 member
        simp [other]
      have ring := ring.turn
      rw [List.cons_append, ← j.turned] at ring
      exact @Circular.rotate _ _ (b.addr :: upper L right') (lower L left) ring
    · rw [shape]
      have := j.q_mem
      simp only [List.mem_append, List.mem_cons] at this ⊢
      tauto
    · obtain ⟨part, _, _⟩ := List.isChain_append.mp wf.coalesced
      refine List.isChain_append.mpr ⟨part, ?_, ?_⟩
      · refine List.isChain_cons.mpr ⟨?_, j.coalesced⟩
        intro c member
        simp [j.apart c member]
      · intro x memberX _ _
        simp [alone x memberX]
  · simp [f, j.used]
  · exact ⟨f, by simp, rfl, j.size⟩
  · intro x outside neqB
    have neqQ : x ≠ q := by
      rintro rfl
      apply outside
      rw [nodes_live live]
      have := j.q_mem
      have within : ∀ y ∈ freeAddrs right', y ∈ freeAddrs right := by
        intro y member
        obtain ⟨c, memberC, free, addr⟩ := mem_freeAddrs.mp member
        exact mem_freeAddrs.mpr ⟨c, j.part.subset memberC, free, addr⟩
      simp only [upper, List.mem_append] at this ⊢
      rcases this with (member | member) | member
      · exact .inr (.inl (within _ member))
      · exact .inr (.inr member)
      · exact .inl member
    simp only [Function.update_of_ne neqQ]
    exact j.frame x neqB
  · rfl

theorem Wf.free_block (wf : Wf L s (left ++ b :: right)) (live : b.free = false) :
    ∃ s' bs', (∀ fuel, (nodes L (left ++ b :: right)).length ≤ fuel →
        free fuel s (b.addr + sizeofHeader) = some s') ∧
      Released L s left right b s' bs' := by
  obtain ⟨lows, highs⟩ := wf.tiled.sides wf.bound
  obtain ⟨low, high, positive⟩ := wf.tiled.bounds (b := b) (by simp)
  have bound := wf.bound
  have top := L.top_lt
  have ring := wf.ring
  have sorted := nodes_sorted wf.tiled wf.bound
  have rover := wf.rover
  rw [nodes_live live] at ring sorted rover ⊢
  obtain ⟨rest, q, turned, search⟩ := free_search ring sorted lows (fun x member => (highs x member).2) rover
  have addr : wrap (b.addr + sizeofHeader + 2^32 - sizeofHeader) = b.addr := by
    simp only [Block.stop, wrap, sizeofHeader] at *
    omega
  have count : (lower L left ++ upper L right).length = rest.length + 1 := by
    have := congrArg List.length turned
    simp only [List.length_append, List.length_singleton] at this ⊢
    omega
  obtain ⟨m, right', rest', joined⟩ := wf.join_upper live turned
  have result : ∀ bs', Released L s left right b
      { s with mem := joinLower (joinUpper s.mem q b.addr) q b.addr, allocp := q } bs' →
      ∃ s' bs', (∀ fuel, (lower L left ++ upper L right).length ≤ fuel →
        free fuel s (b.addr + sizeofHeader) = some s') ∧ Released L s left right b s' bs' := by
    intro bs' released
    refine ⟨_, bs', fun fuel enough => ?_, released⟩
    simp only [free, addr, search fuel (by omega)]
  cases shape : left.getLast? with
  | none =>
    obtain ⟨bs', released⟩ := joined.link_beside wf live (by simp [shape])
    exact result bs' released
  | some a =>
    by_cases free : a.free = true
    · have split : left = left.dropLast ++ [a] := by
        have := List.dropLast_append_getLast? a shape
        exact this.symm
      obtain ⟨bs', released⟩ := joined.join_below wf live split free
      exact result bs' released
    · obtain ⟨bs', released⟩ := joined.link_beside wf live (by
        intro d member
        have : d = a := by simpa [shape] using member.symm
        simpa [this] using free)
      exact result bs' released

end Release

end Embryo.Malloc
