import Embryo.Machine.Bits
import Embryo.Machine.Trie
import Embryo.Radix.Order

namespace Embryo.Radix

open Embryo.Machine

def keyOf (nodes : Nat → RadixNode) (a : Nat) : Nat → UInt8 :=
  ((nodes a).leaf?.map fun u => u.key.bytes).getD fun _ => 0

abbrev LeafKey := Nat × (Nat → UInt8)

def leafKey (nodes : Nat → RadixNode) (a : Nat) : LeafKey := (a, keyOf nodes a)

def keyBit (e : LeafKey) (b : Nat) : Bool := bitAt e.2 b

def Tree.shape (nodes : Nat → RadixNode) : Tree → Trie LeafKey
  | .leaf chain => .leaf (leafKey nodes (chain.headD 0))
  | .node a l r => .node (nodes a).b.toNat (l.shape nodes) (r.shape nodes)

def Marked (nodes : Nat → RadixNode) (a : Nat) : Prop :=
  ∃ u, (nodes a).node? = some u ∧ u.off = (nodes a).b.toNat / 8 ∧
    (nodes a).bmask = 0x80 >>> UInt8.ofNat ((nodes a).b.toNat % 8)

def Indexed (nodes : Nat → RadixNode) : Tree → Prop
  | .leaf _ => True
  | .node a l r => Marked nodes a ∧ Indexed nodes l ∧ Indexed nodes r

variable {nodes nodes' : Nat → RadixNode} {v : Caddr} {s : Tree} {q b t tt p x fuel : Nat}

theorem keyOf_leaf {a : Nat} {u : RnLeaf} (isLeaf : (nodes a).leaf? = some u) :
    keyOf nodes a = u.key.bytes := by
  rw [keyOf, isLeaf]
  rfl

theorem Marked.turns {a : Nat} (marked : Marked nodes a) : turns nodes v a = bitAt v (nodes a).b.toNat := by
  obtain ⟨u, isNode, off, bmask⟩ := marked
  rw [Radix.turns, isNode]
  simp only [off, bmask]
  rfl

theorem find_shape (indexed : Indexed nodes s) :
    (s.shape nodes).find (bitAt v) = leafKey nodes ((s.find nodes v).headD 0) := by
  induction s with
  | leaf chain => rfl
  | node a l r ihl ihr =>
    obtain ⟨marked, left, right⟩ := indexed
    rw [Tree.shape, Trie.find, Tree.find, marked.turns, ihl left, ihr right]
    split <;> rfl

structure Kept (nodes nodes' : Nat → RadixNode) (c : Nat) : Prop where
  b : (nodes' c).b = (nodes c).b
  bmask : (nodes' c).bmask = (nodes c).bmask
  flags : (nodes' c).flags = (nodes c).flags
  leaf? : (nodes' c).leaf? = (nodes c).leaf?
  off : (nodes' c).node?.map RnNode.off = (nodes c).node?.map RnNode.off

theorem Attached.kept (attached : Attached nodes nodes' v b t tt p x) {c : Nat} (notT : c ≠ t)
    (notTt : c ≠ tt) : Kept nodes nodes' c := by
  by_cases atP : c = p
  · obtain ⟨u, isNode, above⟩ := attached.above
    have inner := node_u isNode
    subst atP
    refine ⟨by rw [above], by rw [above], by rw [above], ?_, ?_⟩
    · rw [above, RadixNode.leaf?, RadixNode.leaf?, inner]
    · rw [above, isNode]
      simp only [RadixNode.node?]
      split <;> rfl
  by_cases atX : c = x
  · have same := attached.below
    subst atX
    exact ⟨by rw [same], by rw [same], by rw [same], by rw [same, RadixNode.leaf?, RadixNode.leaf?],
      by rw [same, RadixNode.node?, RadixNode.node?]⟩
  · have same := attached.others c notT notTt atP atX
    exact ⟨by rw [same], by rw [same], by rw [same], by rw [same], by rw [same]⟩

theorem Kept.keyOf {c : Nat} (kept : Kept nodes nodes' c) : keyOf nodes' c = keyOf nodes c := by
  rw [Radix.keyOf, Radix.keyOf, kept.leaf?]

theorem Kept.marked {c : Nat} (kept : Kept nodes nodes' c) (marked : Marked nodes c) : Marked nodes' c := by
  obtain ⟨u, isNode, off, bmask⟩ := marked
  have held := kept.off
  rw [isNode] at held
  obtain ⟨u', isNode', same⟩ := Option.map_eq_some_iff.mp held
  exact ⟨u', isNode', by rw [same, kept.b, off], by rw [kept.bmask, kept.b, bmask]⟩

theorem shape_congr (holds : Holds nodes q s) (kept : ∀ c ∈ s.addrs, Kept nodes nodes' c) :
    s.shape nodes' = s.shape nodes := by
  induction s generalizing q with
  | leaf chain =>
    have same := (kept (chain.headD 0) (headD_mem holds.1)).keyOf
    rw [Tree.shape, Tree.shape, leafKey, leafKey, same]
  | node a l r ihl ihr =>
    obtain ⟨-, -, -, -, left, right⟩ := holds
    rw [Tree.shape, Tree.shape, (kept a List.mem_cons_self).b,
      ihl left fun c member => kept c (List.mem_cons_of_mem _ (List.mem_append_left _ member)),
      ihr right fun c member => kept c (List.mem_cons_of_mem _ (List.mem_append_right _ member))]

theorem Indexed.congr (indexed : Indexed nodes s) (kept : ∀ c ∈ s.addrs, Kept nodes nodes' c) :
    Indexed nodes' s := by
  induction s with
  | leaf chain => trivial
  | node a l r ihl ihr =>
    obtain ⟨marked, left, right⟩ := indexed
    refine ⟨(kept a List.mem_cons_self).marked marked, ?_, ?_⟩
    · exact ihl left fun c member => kept c (List.mem_cons_of_mem _ (List.mem_append_left _ member))
    · exact ihr right fun c member => kept c (List.mem_cons_of_mem _ (List.mem_append_right _ member))

structure NewPair (nodes' : Nat → RadixNode) (v : Caddr) (b t tt : Nat) : Prop where
  index : (nodes' tt).b = b
  marked : Marked nodes' tt
  key : keyOf nodes' t = v.bytes

theorem Attached.newPair (attached : Attached nodes nodes' v b t tt p x) : NewPair nodes' v b t tt := by
  obtain ⟨index, -, bmask, links⟩ := attached.inner
  obtain ⟨leaf, isLeaf, new⟩ := attached.new
  refine ⟨index, ⟨_, links, ?_, ?_⟩, ?_⟩
  · rw [index]
    split <;> rfl
  · rw [index, bmask]
    rfl
  · rw [keyOf, new]
    rfl

theorem topped_shape (new : NewPair nodes' v b t tt) (s : Tree) :
    (topped t tt (newTurn v b) s).shape nodes' = (s.shape nodes').fork (bitAt v) b (t, v.bytes) := by
  have leaf : (Tree.leaf [t]).shape nodes' = .leaf (t, v.bytes) := by
    rw [Tree.shape, leafKey, ← new.key]
    rfl
  have index : (nodes' tt).b.toNat = b := by
    rw [new.index]
    rfl
  have turn : bitAt v b = newTurn v b := rfl
  rw [topped, Trie.fork, turn]
  split
  · rw [Tree.shape, leaf, index]
  · rw [Tree.shape, leaf, index]

theorem topped_indexed (new : NewPair nodes' v b t tt) (indexed : Indexed nodes' s) :
    Indexed nodes' (topped t tt (newTurn v b) s) := by
  rw [topped]
  split
  · exact ⟨new.marked, indexed, trivial⟩
  · exact ⟨new.marked, trivial, indexed⟩

theorem stops_iff (holds : Holds nodes q s) :
    stops nodes b s.root ↔ ∀ a l r, s = .node a l r → b ≤ (nodes a).b.toNat := by
  cases s with
  | leaf chain =>
    exact iff_of_true (.inl (holds.2.2.2 _ (headD_mem holds.1)).1) fun _ _ _ other => by cases other
  | node a l r =>
    have inner := holds.2.1
    constructor
    · rintro stop _ _ _ ⟨⟩
      have here : (nodes a).b < 0 ∨ (b : Int) ≤ (nodes a).b := stop
      omega
    · intro upto
      have here := upto a l r rfl
      exact .inr (show (b : Int) ≤ (nodes a).b by omega)

theorem grow_shape (holds : Holds nodes q s) (indexed : Indexed nodes s) (new : NewPair nodes' v b t tt)
    (kept : ∀ c ∈ s.addrs, Kept nodes nodes' c) (before : ¬ stops nodes b s.root) :
    (s.grow nodes v b t tt (newTurn v b)).shape nodes' = (s.shape nodes).grow (bitAt v) b (t, v.bytes) ∧
      Indexed nodes' (s.grow nodes v b t tt (newTurn v b)) := by
  induction s generalizing q with
  | leaf chain => exact absurd (.inl (holds.2.2.2 _ (headD_mem holds.1)).1) before
  | node a l r ihl ihr =>
    have less : ¬ b ≤ (nodes a).b.toNat := fun upto =>
      before ((stops_iff holds).mpr fun _ _ _ same => by cases same; exact upto)
    obtain ⟨-, -, -, -, left, right⟩ := holds
    obtain ⟨marked, indexedL, indexedR⟩ := indexed
    have here := kept a List.mem_cons_self
    have keptL : ∀ c ∈ l.addrs, Kept nodes nodes' c := fun c member =>
      kept c (List.mem_cons_of_mem _ (List.mem_append_left _ member))
    have keptR : ∀ c ∈ r.addrs, Kept nodes nodes' c := fun c member =>
      kept c (List.mem_cons_of_mem _ (List.mem_append_right _ member))
    -- what becomes of the side that `v` goes to
    have grown : ∀ {s : Tree}, Holds nodes a s → Indexed nodes s → (∀ c ∈ s.addrs, Kept nodes nodes' c) →
        (¬ stops nodes b s.root → (s.grow nodes v b t tt (newTurn v b)).shape nodes' =
          (s.shape nodes).grow (bitAt v) b (t, v.bytes) ∧
          Indexed nodes' (s.grow nodes v b t tt (newTurn v b))) →
        (if stops nodes b s.root then topped t tt (newTurn v b) s
          else s.grow nodes v b t tt (newTurn v b)).shape nodes' =
          (s.shape nodes).grow (bitAt v) b (t, v.bytes) ∧
          Indexed nodes' (if stops nodes b s.root then topped t tt (newTurn v b) s
              else s.grow nodes v b t tt (newTurn v b)) := by
      intro s holds indexed kept further
      split
      · next stop =>
        refine ⟨?_, topped_indexed new (indexed.congr kept)⟩
        rw [topped_shape new, shape_congr holds kept]
        cases s with
        | leaf chain => rfl
        | node c l r => rw [Tree.shape, Trie.grow, if_pos ((stops_iff holds).mp stop c l r rfl)]
      · next stop => exact further stop
    have growL := grown left indexedL keptL fun stop => ihl left indexedL keptL stop
    have growR := grown right indexedR keptR fun stop => ihr right indexedR keptR stop
    rw [Tree.grow, Tree.shape, Trie.grow, if_neg less, marked.turns]
    split
    · refine ⟨?_, here.marked marked, indexedL.congr keptL, growR.2⟩
      rw [Tree.shape, growR.1, here.b, shape_congr left keptL]
    · refine ⟨?_, here.marked marked, growL.2, indexedR.congr keptR⟩
      rw [Tree.shape, growL.1, here.b, shape_congr right keptR]

theorem placed_exists (holds : Holds nodes q s) (inner : ∃ a l r, s = .node a l r) (enough : s.depth < fuel) :
    ∃ p x, loop (placePass nodes v b) fuel s.root = some (p, x) := by
  induction s generalizing q fuel with
  | leaf chain =>
    obtain ⟨_, _, _, other⟩ := inner
    cases other
  | node a l r ihl ihr =>
    obtain ⟨rest, rfl⟩ : ∃ rest, fuel = rest + 1 := ⟨fuel - 1, by omega⟩
    have pass := placePass_holds (b := b) (v := v) holds
    rw [Tree.depth] at enough
    rw [Tree.root, loop, pass]
    by_cases stop : stops nodes b (side nodes v a l r).root
    · rw [if_pos stop]
      exact ⟨_, _, rfl⟩
    rw [if_neg stop]
    have further : ∀ {s : Tree}, Holds nodes a s → ¬ stops nodes b s.root → ∃ a l r, s = .node a l r := by
      intro s holds stop
      cases s with
      | leaf chain => exact absurd (.inl (holds.2.2.2 _ (headD_mem holds.1)).1) stop
      | node a l r => exact ⟨a, l, r, rfl⟩
    obtain ⟨-, -, -, -, left, right⟩ := holds
    unfold side at stop ⊢
    dsimp only
    split
    · next turn =>
      rw [if_pos turn] at stop
      exact ihr right (further right stop) (by omega)
    · next turn =>
      rw [if_neg turn] at stop
      exact ihl left (further left stop) (by omega)

theorem placed_child (placed : loop (placePass nodes v b) fuel q = some (p, x)) :
    child nodes v p = some x := by
  refine loop_invariant (fun _ => True) (fun r : Nat × Nat => child nodes v r.1 = some r.2)
    (fun _ _ _ _ => trivial) ?_ placed trivial
  intro a r leave _
  unfold placePass at leave
  split at leave
  · cases leave
  · next c down =>
    split at leave
    · cases leave
      exact down
    · cases leave

theorem attach_exists (isLeaf : (nodes t).leaf?.isSome = true) (down : child nodes v p = some x)
    (tp : t ≠ p) :
    ∃ nodes', attach nodes v b t tt p x = some nodes' := by
  obtain ⟨leaf, isLeaf⟩ := Option.isSome_iff_exists.mp isLeaf
  obtain ⟨u, isNode, -⟩ := Option.map_eq_some_iff.mp down
  rw [attach, isLeaf]
  simp only [setChild, Function.update_of_ne tp.symm, isNode, Option.map_some]
  exact ⟨_, rfl⟩

theorem firstDiff_none {key : Caddr} {off vlen : Nat} :
    firstDiff v key off vlen = none ↔ ∀ i, off ≤ i → i < vlen → v i = key i := by
  rw [firstDiff, List.find?_eq_none]
  simp only [List.mem_range'_1, decide_eq_true_eq, ne_eq, not_not]
  exact ⟨fun same i low high => same i ⟨low, by omega⟩, fun same i inside => same i inside.1 (by omega)⟩

theorem firstDiff_lt {key : Caddr} {off vlen i : Nat} (found : firstDiff v key off vlen = some i) :
    i < vlen := by
  have member := List.mem_of_find?_eq_some found
  rw [List.mem_range'_1] at member
  omega

structure Patricia (nodes : Nat → RadixNode) (top off : Nat) (s : Tree) : Prop where
  stands : Stands nodes top s
  nodup : s.addrs.Nodup
  single : ∀ chain ∈ s.chains, ∃ a, chain = [a]
  inner : ∃ a l r, s = .node a l r
  indexed : Indexed nodes s
  index : (nodes top).b.toNat = 8 * off
  sound : (s.shape nodes).Sound keyBit (8 * off) (8 * off)

structure Grew (nodes nodes' : Nat → RadixNode) (v : Caddr) (top off : Nat) (s s' : Tree)
    (b t tt : Nat) : Prop where
  patricia : Patricia nodes' top off s'
  shape : s'.shape nodes' = (s.shape nodes).grow (bitAt v) b (t, v.bytes)
  low : 8 * off ≤ b
  high : b < 8 * (v 0).toNat
  kept : ∀ c, c ≠ t → c ≠ tt → Kept nodes nodes' c
  others : ∀ c, c ∉ s.addrs → c ≠ t → c ≠ tt → nodes' c = nodes c
  new : (nodes' t).b = -1 ∧ (nodes' t).flags = ⟨false, true, false⟩ ∧ (nodes' t).leaf? = some ⟨v, none, 0⟩
  addrs : s'.addrs.Perm (t :: tt :: s.addrs)

def Tree.leafOf (nodes : Nat → RadixNode) (v : Caddr) (s : Tree) : Nat := (s.find nodes v).headD 0

section Insert

variable {treetop off : Nat}

theorem Patricia.topNode (P : Patricia nodes treetop off s) :
    ∃ u, (nodes s.root).node? = some u ∧ u.off = off := by
  obtain ⟨a, l, r, rfl⟩ := P.inner
  obtain ⟨u, isNode, byte, -⟩ := P.indexed.1
  have index := P.index
  rw [← P.stands.root] at index
  change (nodes a).b.toNat = 8 * off at index
  exact ⟨u, isNode, by rw [byte, index, Nat.mul_div_cancel_left off (by decide)]⟩

theorem Patricia.leaf (P : Patricia nodes treetop off s) : ∃ u, (nodes (s.leafOf nodes v)).leaf? = some u :=
  Option.isSome_iff_exists.mp P.stands.find.2

theorem Patricia.search (P : Patricia nodes treetop off s) (enough : s.depth < fuel) :
    rnSearch fuel nodes v treetop = some (s.leafOf nodes v) := by
  have found := rnSearch_holds (v := v) P.stands.holds
  rw [P.stands.root] at found
  exact loop_mono found enough fun _ _ passed => passed

theorem Patricia.insert_same (P : Patricia nodes treetop off s) (enough : s.depth < fuel)
    (same : ∀ i, off ≤ i → i < (v 0).toNat → v i = keyOf nodes (s.leafOf nodes v) i) :
    rnInsert fuel nodes v treetop t tt = some (s.leafOf nodes v, true, nodes) := by
  obtain ⟨u, isNode, byte⟩ := P.topNode
  obtain ⟨leaf, isLeaf⟩ := P.leaf (v := v)
  rw [keyOf_leaf isLeaf] at same
  rw [P.stands.root] at isNode
  have none : firstDiff v leaf.key u.off (v 0).toNat = none := by
    rw [byte]
    exact firstDiff_none.mpr same
  rw [rnInsert, isNode, P.search enough]
  simp only [isLeaf, none]

theorem Patricia.starts (P : Patricia nodes treetop off s) (behind : 8 * off < b) :
    ¬ stops nodes b s.root := by
  obtain ⟨a, l, r, rfl⟩ := P.inner
  have index := P.index
  rw [← P.stands.root] at index
  change (nodes a).b.toNat = 8 * off at index
  intro stop
  have upto := (stops_iff P.stands.holds).mp stop a l r rfl
  omega

theorem Patricia.behind (P : Patricia nodes treetop off s) (low : 8 * off ≤ b)
    (differ : bitAt v b ≠ keyBit ((s.shape nodes).find (bitAt v)) b) : 8 * off < b := by
  obtain ⟨a, l, r, rfl⟩ := P.inner
  have index := P.index
  rw [← P.stands.root] at index
  change (nodes a).b.toNat = 8 * off at index
  have sound := P.sound
  rw [Tree.shape] at sound differ
  have here := sound.find_bit (w := bitAt v)
  rw [index] at here differ
  by_contra upto
  have same : b = 8 * off := by omega
  subst same
  exact differ here.symm

theorem Tree.grow_inner {right : Bool} (inner : ∃ a l r, s = .node a l r) :
    ∃ a l r, s.grow nodes v b t tt right = .node a l r := by
  obtain ⟨a, l, r, rfl⟩ := inner
  rw [Tree.grow]
  split <;> exact ⟨_, _, _, rfl⟩

theorem Patricia.grew (P : Patricia nodes treetop off s) (attached : Attached nodes nodes' v b t tt p x)
    (placed : loop (placePass nodes v b) fuel s.root = some (p, x))
    (blank : nodes t = RadixNode.blank) (nonzero : t ≠ 0 ∧ tt ≠ 0)
    (fresh : t ∉ s.addrs ∧ tt ∉ s.addrs) (apart : t ≠ tt) (low : 8 * off ≤ b) (high : b < 8 * (v 0).toNat)
    (agree : Trie.Agree (bitAt v) (keyBit ((s.shape nodes).find (bitAt v))) (8 * off) b)
    (differ : bitAt v b ≠ keyBit ((s.shape nodes).find (bitAt v)) b) :
    Grew nodes nodes' v treetop off s (s.grow nodes v b t tt (newTurn v b)) b t tt := by
  have holds := P.stands.holds
  obtain ⟨held, ends⟩ := grow_holds holds P.nodup placed attached blank nonzero fresh
  have old : ∀ c ∈ s.addrs, c ≠ t ∧ c ≠ tt := fun c member =>
    ⟨fun same => fresh.1 (same ▸ member), fun same => fresh.2 (same ▸ member)⟩
  have kept : ∀ c, c ≠ t → c ≠ tt → Kept nodes nodes' c := fun c => attached.kept
  obtain ⟨shape, indexed⟩ := grow_shape holds P.indexed attached.newPair
    (fun c member => kept c (old c member).1 (old c member).2)
    (P.starts (P.behind low differ))
  obtain ⟨leaf, isLeaf, new⟩ := attached.new
  rw [blank] at isLeaf
  cases isLeaf
  have grown : (s.grow nodes v b t tt (newTurn v b)).addrs.Perm (t :: tt :: s.addrs) := by
    rcases Tree.grow_addrs s with same | more
    · have member : t ∈ (s.grow nodes v b t tt (newTurn v b)).find nodes' v := by
        rw [ends]
        exact List.mem_singleton_self t
      exact absurd (same.mem_iff.mp (Tree.find_subset _ t member)) fresh.1
    · exact more
  obtain ⟨memP, memX, -, -⟩ := placed_mem holds P.nodup placed
  have top := Tree.root_mem holds
  have root := P.stands.root
  have patricia : Patricia nodes' treetop off (s.grow nodes v b t tt (newTurn v b)) := by
    refine ⟨⟨held, (Tree.grow_root s).trans root, fun c member => ?_⟩, ?_, fun chain member => ?_,
      Tree.grow_inner P.inner, indexed, ?_, ?_⟩
    · have cases := grown.mem_iff.mp member
      simp only [List.mem_cons] at cases
      rcases cases with rfl | rfl | inS
      · rw [new]
        show -(2^31 : Int) ≤ -1
        decide
      · rw [attached.inner.1]
        omega
      · rw [(kept c (old c inS).1 (old c inS).2).b]
        exact P.stands.low c inS
    · refine grown.nodup_iff.mpr (List.nodup_cons.mpr ⟨fun member => ?_,
        List.nodup_cons.mpr ⟨fresh.2, P.nodup⟩⟩)
      rcases List.mem_cons.mp member with same | inS
      · exact apart same
      · exact fresh.1 inS
    · rcases Tree.grow_chains s chain member with rfl | inS
      · exact ⟨t, rfl⟩
      · exact P.single chain inS
    · rw [root] at top
      rw [(kept treetop (old treetop top).1 (old treetop top).2).b]
      exact P.index
    · rw [shape]
      exact @Trie.Sound.grow LeafKey keyBit b (8 * off) (8 * off) (t, v.bytes) (s.shape nodes)
        P.sound (Nat.le_refl _) low agree differ
  refine ⟨patricia, shape, low, high, kept, fun c outside notT notTt => ?_, ?_, grown⟩
  · exact attached.others c notT notTt (fun same => outside (same ▸ memP)) fun same => outside (same ▸ memX)
  · rw [new]
    exact ⟨rfl, rfl, rfl⟩

theorem Patricia.insert_new (P : Patricia nodes treetop off s) (enough : s.depth < fuel)
    (blank : nodes t = RadixNode.blank) (nonzero : t ≠ 0 ∧ tt ≠ 0)
    (fresh : t ∉ s.addrs ∧ tt ∉ s.addrs) (apart : t ≠ tt) {i : Nat} (low : off ≤ i)
    (high : i < (v 0).toNat) (differ : v i ≠ keyOf nodes (s.leafOf nodes v) i) :
    ∃ b nodes' s', rnInsert fuel nodes v treetop t tt = some (t, false, nodes') ∧
      Grew nodes nodes' v treetop off s s' b t tt := by
  obtain ⟨u, isNode, byte⟩ := P.topNode
  obtain ⟨leaf, isLeaf⟩ := P.leaf (v := v)
  have key := keyOf_leaf isLeaf
  rw [key] at differ
  cases first : firstDiff v leaf.key u.off (v 0).toNat with
  | none =>
    rw [byte] at first
    exact absurd (firstDiff_none.mp first i low high) differ
  | some j =>
    obtain ⟨from_off, other, before⟩ := firstDiff_spec first
    have inside := firstDiff_lt first
    rw [byte] at from_off before
    obtain ⟨first_bit, last_bit, bit, same⟩ := firstBit_spec other
    generalize index : firstBit v leaf.key j = b at first_bit last_bit bit same
    have agree : Trie.Agree (bitAt v) (bitAt leaf.key) (8 * off) b := by
      intro k low high
      by_cases earlier : k < 8 * j
      · exact bytes_eq_iff.mp before k low earlier
      · exact same k (by omega) high
    have found := find_shape (v := v) P.indexed
    have foundBit : ∀ k, keyBit ((s.shape nodes).find (bitAt v)) k = bitAt leaf.key k := by
      intro k
      rw [found, keyBit, leafKey, ← key]
      rfl
    rw [← foundBit b] at bit
    have found_agree : Trie.Agree (bitAt v) (keyBit ((s.shape nodes).find (bitAt v))) (8 * off) b :=
        fun k low high => by
      rw [foundBit k, agree k low high]
    have holds := P.stands.holds
    obtain ⟨p, x, placed⟩ := @placed_exists nodes v s treetop b fuel holds P.inner enough
    obtain ⟨memP, memX, -, px⟩ := placed_mem holds P.nodup placed
    have tp : t ≠ p := fun same => fresh.1 (same ▸ memP)
    have tx : t ≠ x := fun same => fresh.1 (same ▸ memX)
    have ttp : tt ≠ p := fun same => fresh.2 (same ▸ memP)
    have ttx : tt ≠ x := fun same => fresh.2 (same ▸ memX)
    obtain ⟨nodes', attached⟩ := @attach_exists nodes v b t tt p x (by rw [blank]; rfl)
      (placed_child placed) tp
    have spec := attach_spec attached px tp tx ttp ttx apart
    refine ⟨b, nodes', _, ?_, P.grew spec placed blank nonzero fresh apart (by omega) (by omega)
      found_agree bit⟩
    have root := P.stands.root
    rw [root] at isNode placed
    rw [rnInsert, isNode, P.search enough]
    rw [firstBit] at index
    simp only [isLeaf, first, index, placed, attached]

theorem rnInsert_mono {fuel' : Nat} {result : Nat × Bool × (Nat → RadixNode)}
    (inserted : rnInsert fuel nodes v treetop t tt = some result)
    (more : fuel ≤ fuel') : rnInsert fuel' nodes v treetop t tt = some result := by
  unfold rnInsert at inserted ⊢
  split at inserted
  · next top found isTop searched =>
    have searched' : rnSearch fuel' nodes v treetop = some found :=
      loop_mono searched more fun _ _ passed => passed
    simp only [isTop, searched']
    split at inserted
    · cases inserted
    · split at inserted
      · exact inserted
      · dsimp only at inserted
        split at inserted
        · cases inserted
        · next p x placed =>
          rw [loop_mono placed more fun _ _ passed => passed]
          exact inserted
  · cases inserted

end Insert

def Child (nodes : Nat → RadixNode) (a x : Nat) : Prop :=
  0 ≤ (nodes a).b ∧ ∃ u, (nodes a).node? = some u ∧ (x = u.l ∨ x = u.r)

def Below (nodes : Nat → RadixNode) (a c : Nat) : Prop := Relation.ReflTransGen (Child nodes) a c

def LeafBelow (nodes : Nat → RadixNode) (a c : Nat) : Prop := Below nodes a c ∧ (nodes c).b < 0

/-- The children of an inner node lead back to it and have greater indices, which those of leaves
    are as `ulong`. The keys below agree from the byte `off` on up to its bit, and go to the left
    and to the right by that bit. -/
structure Branches (nodes : Nat → RadixNode) (off a : Nat) (u : RnNode) : Prop where
  parents : (nodes u.l).p = a ∧ (nodes u.r).p = a
  increases : ulong (nodes a).b < ulong (nodes u.l).b ∧ ulong (nodes a).b < ulong (nodes u.r).b
  agree : ∀ c c', LeafBelow nodes a c → LeafBelow nodes a c' → ∀ i : Nat, 8 * off ≤ i → i < (nodes a).b →
    bitAt (keyOf nodes c) i = bitAt (keyOf nodes c') i
  left : ∀ c, LeafBelow nodes u.l c → bitAt (keyOf nodes c) (nodes a).b.toNat = false
  right : ∀ c, LeafBelow nodes u.r c → bitAt (keyOf nodes c) (nodes a).b.toNat = true

section Below

variable {a c off low : Nat} {l r : Tree} {chain : List Nat}

theorem below_leaf (holds : Holds nodes q (.leaf chain)) (below : Below nodes (chain.headD 0) c) :
    c = chain.headD 0 := by
  rcases Relation.ReflTransGen.cases_head below with same | ⟨x, ⟨inner, -⟩, -⟩
  · exact same.symm
  · have negative := (holds.2.2.2 _ (headD_mem holds.1)).1
    omega

theorem below_node (holds : Holds nodes q (.node a l r)) :
    Below nodes a c ↔ c = a ∨ Below nodes l.root c ∨ Below nodes r.root c := by
  obtain ⟨-, inner, -, ⟨off, links⟩, -, -⟩ := holds
  constructor
  · intro below
    rcases Relation.ReflTransGen.cases_head below with same | ⟨x, ⟨-, u, isNode, side⟩, rest⟩
    · exact .inl same.symm
    · rw [links] at isNode
      cases isNode
      rcases side with rfl | rfl
      · exact .inr (.inl rest)
      · exact .inr (.inr rest)
  · rintro (rfl | left | right)
    · exact .refl
    · exact .head ⟨inner, _, links, .inl rfl⟩ left
    · exact .head ⟨inner, _, links, .inr rfl⟩ right

theorem below_key (holds : Holds nodes q s) (leaf : LeafBelow nodes s.root c) :
    leafKey nodes c ∈ (s.shape nodes).keys := by
  obtain ⟨below, negative⟩ := leaf
  induction s generalizing q with
  | leaf chain =>
    rw [below_leaf holds below]
    exact List.mem_singleton_self _
  | node a l r ihl ihr =>
    rcases (below_node holds).mp below with rfl | left | right
    · have inner := holds.2.1
      omega
    · exact List.mem_append_left _ (ihl holds.2.2.2.2.1 left)
    · exact List.mem_append_right _ (ihr holds.2.2.2.2.2 right)

theorem key_below (holds : Holds nodes q s) {e : LeafKey} (member : e ∈ (s.shape nodes).keys) :
    LeafBelow nodes s.root e.1 ∧ keyOf nodes e.1 = e.2 := by
  induction s generalizing q with
  | leaf chain =>
    rw [List.mem_singleton.mp member]
    exact ⟨⟨.refl, (holds.2.2.2 _ (headD_mem holds.1)).1⟩, rfl⟩
  | node a l r ihl ihr =>
    rcases List.mem_append.mp member with left | right
    · obtain ⟨⟨below, negative⟩, key⟩ := ihl holds.2.2.2.2.1 left
      exact ⟨⟨(below_node holds).mpr (.inr (.inl below)), negative⟩, key⟩
    · obtain ⟨⟨below, negative⟩, key⟩ := ihr holds.2.2.2.2.2 right
      exact ⟨⟨(below_node holds).mpr (.inr (.inr below)), negative⟩, key⟩

theorem addrs_below (holds : Holds nodes q s) (single : ∀ chain ∈ s.chains, ∃ a, chain = [a])
    (member : c ∈ s.addrs) :
    Below nodes s.root c := by
  induction s generalizing q with
  | leaf chain =>
    obtain ⟨a, rfl⟩ := single chain (List.mem_singleton_self chain)
    rw [List.mem_singleton.mp member]
    exact .refl
  | node a l r ihl ihr =>
    rcases List.mem_cons.mp member with rfl | member
    · exact .refl
    refine (below_node holds).mpr (.inr ?_)
    rcases List.mem_append.mp member with left | right
    · exact .inl (ihl holds.2.2.2.2.1 (fun chain inside => single chain (List.mem_append_left _ inside)) left)
    · exact .inr (ihr holds.2.2.2.2.2 (fun chain inside =>
        single chain (List.mem_append_right _ inside)) right)

theorem root_parent (holds : Holds nodes q s) : (nodes s.root).p = q := by
  cases s with
  | leaf chain => exact holds.2.1
  | node a l r => exact holds.2.2.1

theorem ulong_increases {i : Int} (first : 0 ≤ i) (holds : Holds nodes q s)
    (sound : (s.shape nodes).Sound keyBit (8 * off) (i.toNat + 1))
    (small : -(2^31 : Int) ≤ (nodes s.root).b) (bound : i.toNat < 2^31)
    (within : (s.shape nodes).Within (2^31)) :
    ulong i < ulong (nodes s.root).b := by
  cases s with
  | leaf chain =>
    have negative : (nodes (Tree.leaf chain).root).b < 0 := (holds.2.2.2 _ (headD_mem holds.1)).1
    unfold ulong
    omega
  | node c l r =>
    have later : i.toNat + 1 ≤ (nodes (Tree.node c l r).root).b.toNat := sound.1
    have inside : (nodes (Tree.node c l r).root).b.toNat < 2^31 := within.1
    unfold ulong
    omega

theorem branches (holds : Holds nodes q s) (sound : (s.shape nodes).Sound keyBit (8 * off) low)
    (small : ∀ c ∈ s.addrs, -(2^31 : Int) ≤ (nodes c).b) (within : (s.shape nodes).Within (2^31))
    (below : Below nodes s.root c)
    (inner : 0 ≤ (nodes c).b) : ∃ u, (nodes c).node? = some u ∧ Branches nodes off c u := by
  induction s generalizing q low with
  | leaf chain =>
    rw [below_leaf holds below] at inner
    have negative := (holds.2.2.2 _ (headD_mem holds.1)).1
    omega
  | node a l r ihl ihr =>
    have holds' := holds
    obtain ⟨-, -, -, ⟨byte, links⟩, holdsL, holdsR⟩ := holds'
    obtain ⟨-, left, right, all, soundL, soundR⟩ := sound
    obtain ⟨bound, withinL, withinR⟩ := within
    have smallL := fun c member => small c (List.mem_cons_of_mem _ (List.mem_append_left _ member))
    have smallR := fun c member => small c (List.mem_cons_of_mem _ (List.mem_append_right _ member))
    rcases (below_node holds).mp below with rfl | inL | inR
    · refine ⟨_, links, ⟨root_parent holdsL, root_parent holdsR⟩, ⟨?_, ?_⟩,
        fun k k' leaf leaf' i first last => ?_, fun k leaf => ?_, fun k leaf => ?_⟩
      · exact ulong_increases inner holdsL soundL (smallL _ (Tree.root_mem holdsL)) bound withinL
      · exact ulong_increases inner holdsR soundR (smallR _ (Tree.root_mem holdsR)) bound withinR
      · have here := below_key holds leaf
        have there := below_key holds leaf'
        exact all _ here _ there i first (by omega)
      · exact left _ (below_key holdsL leaf)
      · exact right _ (below_key holdsR leaf)
    · exact ihl holdsL soundL smallL withinL inL
    · exact ihr holdsR soundR smallR withinR inR

end Below

theorem rnInithead_patricia {T : Tables} {base off : Nat} (nonzero : base ≠ 0)
    (short : 8 * off < 2^15) (zeros : T.zeros off = 0) (ones : T.ones off = 0xff) :
    Patricia (rnInithead T base (8 * off)).nodes (base + sizeofRadixNode) off (headTree base) ∧
      (headTree base).shape (rnInithead T base (8 * off)).nodes =
        .node (8 * off) (.leaf (base, T.zeros.bytes)) (.leaf (base + 2 * sizeofRadixNode, T.ones.bytes)) := by
  obtain ⟨left, top, right⟩ := rnInithead_nodes T base (8 * off)
  have shape : (headTree base).shape (rnInithead T base (8 * off)).nodes =
      .node (8 * off) (.leaf (base, T.zeros.bytes)) (.leaf (base + 2 * sizeofRadixNode, T.ones.bytes)) := by
    simp only [headTree, Tree.shape, List.headD_cons, leafKey, keyOf, left, top, right, RadixNode.leaf?]
    rfl
  have place : 8 * off = 8 * off + 0 := rfl
  have zero_bit : bitAt T.zeros.bytes (8 * off) = false := by
    rw [place, bitAt_byte _ _ (by decide), zeros]
    rfl
  have one_bit : bitAt T.ones.bytes (8 * off) = true := by
    rw [place, bitAt_byte _ _ (by decide), ones]
    rfl
  refine ⟨⟨(rnInithead_stands nonzero short).1, ?_, ?_, ⟨_, _, _, rfl⟩,
    ⟨⟨_, by rw [top]; rfl, ?_, ?_⟩, trivial, trivial⟩, ?_, ?_⟩, shape⟩
  · simp [headTree, Tree.addrs, sizeofRadixNode]
  · intro chain member
    rcases List.mem_pair.mp member with rfl | rfl <;> exact ⟨_, rfl⟩
  · rw [top]
    rfl
  · rw [top]
    rfl
  · rw [top]
    rfl
  · rw [shape]
    refine ⟨Nat.le_refl _, ?_, ?_, fun k _ k' _ i first last => absurd first (by omega), trivial, trivial⟩
    · intro k member
      rw [List.mem_singleton.mp member]
      exact zero_bit
    · intro k member
      rw [List.mem_singleton.mp member]
      exact one_bit

end Embryo.Radix
