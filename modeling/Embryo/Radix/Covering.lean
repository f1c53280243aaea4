import Embryo.Radix.Patricia

namespace Embryo.Radix

open Embryo.Machine

def Tree.climb (turn : Nat → Bool) : Tree → List Tree
  | .leaf _ => []
  | .node a l r => (if turn a then r.climb turn else l.climb turn) ++ [.node a l r]

def Tree.along (turn : Nat → Bool) : Tree → List Nat
  | .leaf chain => chain
  | .node a l r => if turn a then r.along turn else l.along turn

/-- A masked search goes to the right where `v` and the mask both do. -/
def maskTurns (nodes : Nat → RadixNode) (v m : Caddr) (a : Nat) : Bool := turns nodes v a && turns nodes m a

def Arm (R : RadixStore) (rm : Nat) : Prop :=
  match (R.masks rm).u with
  | .leaf _ => (R.masks rm).flags.normal = true
  | .mask _ => (R.masks rm).flags.normal = false

structure Lists (R : RadixStore) (E : Nat → List Nat) (a : Nat) : Prop where
  linked : Linked (fun rm => (R.masks rm).next) (R.nodes a).masklist (E a)
  arms : ∀ rm ∈ E a, Arm R rm

/-- A tree of routes. The leaves of a chain have one key, and masks unless they are alone; a mask at
    one address has the same bytes in an entry and in a leaf. -/
structure Searchable (R : RadixStore) (treetop off : Nat) (s : Tree) (E : Nat → List Nat) : Prop where
  stands : Stands R.nodes treetop s
  nodup : s.addrs.Nodup
  inner : ∃ a l r, s = .node a l r
  indexed : Indexed R.nodes s
  index : (R.nodes treetop).b.toNat = 8 * off
  sound : (s.shape R.nodes).Sound keyBit (8 * off) (8 * off)
  uniform : ∀ chain ∈ s.chains, Uniform R.nodes chain
  keys : ∀ chain ∈ s.chains, ∀ a ∈ chain, ∀ leaf, (R.nodes a).leaf? = some leaf →
    ∀ i, off ≤ i → i < (leaf.key 0).toNat → leaf.key i = keyOf R.nodes (chain.headD 0) i
  lists : ∀ a ∈ s.addrs, 0 ≤ (R.nodes a).b → Lists R E a
  masks : ∀ a ∈ s.addrs, ∀ m, maskOf R.nodes a = some m → ∀ rm mask, (R.masks rm).u = .mask mask →
    mask.addr = m.addr → mask = m

def Passed (R : RadixStore) (v : Caddr) (rnB : UInt16) (skip c : Nat) : Prop :=
  if (R.nodes c).flags.normal then (R.nodes c).b < rnB.toNat
  else ∃ leaf, (R.nodes c).leaf? = some leaf ∧
    ∃ i, skip ≤ i ∧ i < leaf.span v ∧ (v i ^^^ leaf.key i) &&& leaf.maskByte skip ≠ 0

/-- An entry with `RNF_NORMAL` whose mask is too long. -/
def Longer (R : RadixStore) (rnB : UInt16) (rm : Nat) : Prop :=
  (R.masks rm).flags.normal = true ∧ (R.masks rm).b < rnB

def withMask (nodes : Nat → RadixNode) (m : Caddr) (chain : List Nat) : Nat :=
  (chain.find? fun c => (maskOf nodes c).map Caddr.addr = some m.addr).getD 0

/-- In the bits of the mask that none of the nodes tests, `v` is like the key. -/
def Alike (nodes : Nat → RadixNode) (v : Caddr) (off : Nat) (leaf : RnLeaf) (tested : List Tree) : Prop :=
  ∀ j, 8 * off ≤ j → j < 8 * leaf.span v → bitAt leaf.maskByte j = true →
    (∀ u ∈ tested, (nodes u.root).b.toNat ≠ j) →
    bitAt v j = bitAt leaf.key j

section Walks

variable {R : RadixStore} {v : Caddr} {rnB : UInt16} {skip : Nat}

theorem passed_iff {c : Nat} {leaf : RnLeaf} (isLeaf : (R.nodes c).leaf? = some leaf)
    (abnormal : (R.nodes c).flags.normal = false) :
    Passed R v rnB skip c ↔ ∃ i, skip ≤ i ∧ i < leaf.span v ∧
      (v i ^^^ leaf.key i) &&& leaf.maskByte skip ≠ 0 := by
  rw [Passed, abnormal, if_neg Bool.false_ne_true, isLeaf]
  constructor
  · rintro ⟨other, same, shown⟩
    cases same
    exact shown
  · exact fun shown => ⟨leaf, rfl, shown⟩

theorem dupedPass_masked {c : Nat} {m : Caddr} (nonzero : c ≠ 0) (masked : maskOf R.nodes c = some m) :
    (Passed R v rnB skip c → dupedPass R v rnB ⟨R.nodes, c, skip⟩ =
      some (.again ⟨R.nodes, dup R.nodes c, skip⟩)) ∧
      (¬ Passed R v rnB skip c → dupedPass R v rnB ⟨R.nodes, c, skip⟩ =
        some (.leave (if (R.nodes c).flags.normal then .normal c else .satisfied c,
          ⟨R.nodes, c, skip⟩))) := by
  obtain ⟨leaf, isLeaf, hasMask⟩ := Option.bind_eq_some_iff.mp masked
  have next : dup R.nodes c = leaf.dupedkey := by rw [dup, isLeaf]; rfl
  simp only [dupedPass, if_neg nonzero, isLeaf, next]
  cases normal : (R.nodes c).flags.normal with
  | true =>
    simp only [Passed, normal, if_true]
    refine ⟨fun less => ?_, fun least => ?_⟩
    · rw [if_neg (by omega)]
    · rw [if_pos (by omega)]
  | false =>
    obtain ⟨result, same⟩ := @rnSatisfiesLeaf_eq R.ones v leaf skip m hasMask
    have passes : Passed R v rnB skip c ↔ (rnSatisfiesLeaf R.ones v leaf skip).1 = false := by
      rw [passed_iff isLeaf normal, ← Bool.not_eq_true, result]
      simp only [not_forall, exists_prop, ne_eq]
    rw [passes, Bool.not_eq_false]
    generalize tested : rnSatisfiesLeaf R.ones v leaf skip = answer at same ⊢
    obtain ⟨answer, after⟩ := answer
    cases same
    simp only [Bool.false_eq_true, if_false]
    refine ⟨?_, ?_⟩
    · rintro rfl
      simp only [setLeaf_same isLeaf]
    · rintro rfl
      simp only [setLeaf_same isLeaf]

theorem duped_skips {first fuel : Nat} {before rest : List Nat}
    (linked : Linked (dup R.nodes) first (before ++ rest))
    (masked : ∀ c ∈ before, (maskOf R.nodes c).isSome = true) (passed : ∀ c ∈ before, Passed R v rnB skip c) :
    loop (dupedPass R v rnB) (before.length + fuel)
    ⟨R.nodes, first, skip⟩ = loop (dupedPass R v rnB) fuel ⟨R.nodes, rest.headD 0, skip⟩ := by
  induction before generalizing first with
  | nil =>
    have here : first = rest.headD 0 := linked_head linked
    rw [here, List.length_nil, Nat.zero_add]
  | cons c before ih =>
    obtain ⟨rfl, nonzero, behind⟩ := linked
    obtain ⟨m, isMask⟩ := Option.isSome_iff_exists.mp (masked first List.mem_cons_self)
    have step := (@dupedPass_masked R v rnB skip first m nonzero isMask).1 (passed first List.mem_cons_self)
    rw [List.length_cons, show before.length + 1 + fuel = before.length + fuel + 1 by omega, loop_again step]
    exact ih behind (fun c member => masked c (List.mem_cons_of_mem _ member)) fun c member =>
      passed c (List.mem_cons_of_mem _ member)

theorem duped_stops {first c : Nat} {before after : List Nat}
    (linked : Linked (dup R.nodes) first (before ++ c :: after))
    (masked : ∀ a ∈ before ++ c :: after, (maskOf R.nodes a).isSome = true)
    (passed : ∀ a ∈ before, Passed R v rnB skip a)
    (stops : ¬ Passed R v rnB skip c) : loop (dupedPass R v rnB) (before.length + 1) ⟨R.nodes, first, skip⟩ =
      some (if (R.nodes c).flags.normal then .normal c else .satisfied c, ⟨R.nodes, c, skip⟩) := by
  rw [duped_skips linked (fun a member => masked a (List.mem_append_left _ member)) passed]
  have inside : c ∈ before ++ c :: after := List.mem_append_cons_self
  obtain ⟨m, isMask⟩ := Option.isSome_iff_exists.mp (masked c inside)
  exact loop_leave Nat.one_pos ((dupedPass_masked (linked.nonzero inside) isMask).2 stops)

end Walks

section Searches

variable {nodes : Nat → RadixNode} {v m : Caddr}

theorem find_along (s : Tree) : s.find nodes v = s.along (turns nodes v) := by
  induction s with
  | leaf chain => rfl
  | node a l r ihl ihr => rw [Tree.find, Tree.along, ihl, ihr]

theorem along_leaf {p : Nat} {s : Tree} (turn : Nat → Bool) (holds : Holds nodes p s) :
    ∃ q, Holds nodes q (.leaf (s.along turn)) := by
  induction s generalizing p with
  | leaf chain => exact ⟨p, holds⟩
  | node a l r ihl ihr =>
    rw [Tree.along]
    split
    · exact ihr holds.2.2.2.2.2
    · exact ihl holds.2.2.2.2.1

theorem depth_lt {p : Nat} {s : Tree} (holds : Holds nodes p s) : s.depth < s.addrs.length := by
  induction s generalizing p with
  | leaf chain => exact List.length_pos_of_ne_nil holds.1
  | node a l r ihl ihr =>
    have left := ihl holds.2.2.2.2.1
    have right := ihr holds.2.2.2.2.2
    simp only [Tree.depth, Tree.addrs, List.length_cons, List.length_append]
    omega

theorem along_length (turn : Nat → Bool) (s : Tree) : (s.along turn).length ≤ s.addrs.length := by
  induction s with
  | leaf chain => exact Nat.le_refl _
  | node a l r ihl ihr =>
    simp only [Tree.along, Tree.addrs, List.length_cons, List.length_append]
    split <;> omega

theorem descend_along {p : Nat} {s : Tree} {turn : Nat → Bool} {right : Nat → UInt8 → Bool}
    (same : ∀ a u, (nodes a).node? = some u → right u.off (nodes a).bmask = turn a)
    (holds : Holds nodes p s) :
    loop (descendPass nodes right) (s.depth + 1) s.root = some ((s.along turn).headD 0) := by
  induction s generalizing p with
  | leaf chain =>
    obtain ⟨nonempty, -, -, leaves⟩ := holds
    exact loop_leave Nat.one_pos (if_pos (leaves _ (headD_mem nonempty)).1)
  | node a l r ihl ihr =>
    obtain ⟨-, inner, -, ⟨off, links⟩, left, right'⟩ := holds
    have again : descendPass nodes right a = some (.again (if turn a then r.root else l.root)) := by
      rw [descendPass, if_neg (by omega), ← same a _ links]
      simp only [links]
    have steps := @loop_again _ _ _ (max l.depth r.depth + 1) _ _ again
    rw [Tree.depth, Tree.root, Tree.along, steps]
    by_cases taken : turn a = true
    · rw [if_pos taken, if_pos taken]
      exact loop_mono (ihr right') (by omega) fun _ _ passed => passed
    · rw [if_neg taken, if_neg taken]
      exact loop_mono (ihl left) (by omega) fun _ _ passed => passed

theorem withMask_walk {first : Nat} {chain : List Nat} (linked : Linked (dup nodes) first chain)
    (leaves : ∀ c ∈ chain, (nodes c).leaf?.isSome = true) :
    loop (maskPass nodes m) (chain.length + 1) first = some (withMask nodes m chain) := by
  induction chain generalizing first with
  | nil =>
    cases linked
    exact loop_leave Nat.one_pos rfl
  | cons c chain ih =>
    obtain ⟨rfl, nonzero, behind⟩ := linked
    obtain ⟨leaf, isLeaf⟩ := Option.isSome_iff_exists.mp (leaves first List.mem_cons_self)
    have mask : maskOf nodes first = leaf.mask := by rw [maskOf, isLeaf]; rfl
    have next : dup nodes first = leaf.dupedkey := by rw [dup, isLeaf]; rfl
    rw [next] at behind
    rw [withMask, List.find?_cons, mask]
    by_cases same : leaf.mask.map Caddr.addr = some m.addr
    · rw [decide_eq_true same]
      refine loop_leave (Nat.succ_pos _) ?_
      rw [maskPass, if_neg nonzero, isLeaf]
      simp only [if_pos same]
      rfl
    · rw [decide_eq_false same]
      have step : maskPass nodes m first = some (.again leaf.dupedkey) := by
        rw [maskPass, if_neg nonzero, isLeaf]
        simp only [if_neg same]
      rw [List.length_cons, loop_again step]
      exact ih behind fun c member => leaves c (List.mem_cons_of_mem _ member)

theorem maskedLeaf_tree {p fuel : Nat} {t : Tree} (holds : Holds nodes p t) (enough : t.addrs.length < fuel) :
    maskedLeaf fuel nodes v m t.root = some (withMask nodes m (t.along (maskTurns nodes v m))) := by
  have same : ∀ a u, (nodes a).node? = some u →
      (decide (v u.off &&& (nodes a).bmask ≠ 0 ∧ m u.off &&& (nodes a).bmask ≠ 0)) =
          maskTurns nodes v m a := by
    intro a u isNode
    simp only [maskTurns, turns, isNode, Bool.decide_and]
  have searched := loop_mono (@descend_along nodes p t _ (fun off bmask => v off &&& bmask ≠ 0 ∧
    m off &&& bmask ≠ 0) same holds) (show t.depth + 1 ≤ fuel from Nat.lt_trans (depth_lt holds) enough)
    fun _ _ passed => passed
  obtain ⟨q, nonempty, -, linked, leaves⟩ := along_leaf (maskTurns nodes v m) holds
  have walked := loop_mono (withMask_walk (m := m) linked fun c member => (leaves c member).2)
    (Nat.lt_of_le_of_lt (along_length (maskTurns nodes v m) t) enough) fun _ _ passed => passed
  simp only [maskedLeaf, rnSearchMask, searched, walked]

end Searches

section Ways

variable {nodes : Nat → RadixNode} {turn : Nat → Bool} {s t : Tree} {p : Nat}

def Up (nodes : Nat → RadixNode) : Nat → List Tree → Nat → Prop
  | a, [], top => a = top
  | a, t :: rest, top => (nodes a).p = t.root ∧ Up nodes t.root rest top

theorem Up.append {a b c : Nat} {first second : List Tree} (lower : Up nodes a first b)
    (upper : Up nodes b second c) :
    Up nodes a (first ++ second) c := by
  induction first generalizing a with
  | nil =>
    cases lower
    exact upper
  | cons t first ih => exact ⟨lower.1, ih lower.2⟩

theorem climb_node {a : Nat} {l r : Tree} :
    (Tree.node a l r).climb turn = (if turn a then r else l).climb turn ++ [.node a l r] := by
  rw [Tree.climb]
  split <;> rfl

theorem climb_inherits {good : Tree → Prop}
    (children : ∀ a l r, good (.node a l r) → good l ∧ good r) (whole : good s) :
    ∀ t ∈ s.climb turn, good t := by
  induction s with
  | leaf chain => exact fun t none => absurd none List.not_mem_nil
  | node a l r ihl ihr =>
    intro t member
    rw [climb_node, List.mem_append, List.mem_singleton] at member
    rcases member with lower | rfl
    · split at lower
      · exact ihr (children a l r whole).2 t lower
      · exact ihl (children a l r whole).1 t lower
    · exact whole

theorem climb_inner : ∀ t ∈ s.climb turn, ∃ a l r, t = .node a l r := by
  induction s with
  | leaf chain => exact fun t none => absurd none List.not_mem_nil
  | node a l r ihl ihr =>
    intro t member
    rw [climb_node, List.mem_append, List.mem_singleton] at member
    rcases member with lower | rfl
    · split at lower
      · exact ihr t lower
      · exact ihl t lower
    · exact ⟨a, l, r, rfl⟩

theorem climb_holds (holds : Holds nodes p s) : ∀ t ∈ s.climb turn, ∃ q, Holds nodes q t :=
  climb_inherits (fun a _ _ held => ⟨⟨a, held.choose_spec.2.2.2.2.1⟩,
    ⟨a, held.choose_spec.2.2.2.2.2⟩⟩) ⟨p, holds⟩

theorem climb_addrs : ∀ t ∈ s.climb turn, t.addrs ⊆ s.addrs :=
  @climb_inherits turn s (fun t => t.addrs ⊆ s.addrs)
    (fun _ _ _ within => ⟨fun _ inside => within (List.mem_cons_of_mem _ (List.mem_append_left _ inside)),
      fun _ inside => within (List.mem_cons_of_mem _ (List.mem_append_right _ inside))⟩) (List.Subset.refl _)

variable {off low : Nat} {k : LeafKey}

end Ways

section Lists

variable {R : RadixStore} {stray : Caddr → RnNode → Nat → Bool} {v : Caddr} {rnB : UInt16}
  {fuel a : Nat} {t : Tree} {u : RnNode}

structure AtNode (R : RadixStore) (v : Caddr) (fuel : Nat) (t : Tree) (u : RnNode) : Prop where
  isNode : (R.nodes t.root).node? = some u
  leads : ∀ m, maskedLeaf fuel R.nodes v m t.root =
    some (withMask R.nodes m (t.along (maskTurns R.nodes v m)))

theorem Arm.leaf {rm : Nat} (arm : Arm R rm) (normal : (R.masks rm).flags.normal = true) :
    ∃ leaf, (R.masks rm).u = .leaf leaf := by
  rw [Arm] at arm
  cases held : (R.masks rm).u with
  | leaf leaf => exact ⟨leaf, rfl⟩
  | mask m =>
    rw [held] at arm
    rw [normal] at arm
    cases arm

theorem Arm.normal {rm leaf : Nat} (arm : Arm R rm) (isLeaf : (R.masks rm).u = .leaf leaf) :
    (R.masks rm).flags.normal = true := by
  rw [Arm, isLeaf] at arm
  exact arm

theorem Arm.abnormal {rm : Nat} {m : Caddr} (arm : Arm R rm) (isMask : (R.masks rm).u = .mask m) :
    (R.masks rm).flags.normal = false := by
  rw [Arm, isMask] at arm
  exact arm

/-- No entry with `RNF_NORMAL` has a short enough mask. -/
def Unhit (R : RadixStore) (rnB : UInt16) (entries : List Nat) : Prop :=
  ∀ rm ∈ entries, (R.masks rm).flags.normal = true → (R.masks rm).b < rnB

theorem Unhit.cons {rm : Nat} {entries : List Nat}
    (here : (R.masks rm).flags.normal = true → (R.masks rm).b < rnB) :
    Unhit R rnB (rm :: entries) ↔ Unhit R rnB entries := by
  rw [Unhit, List.forall_mem_cons]
  exact and_iff_right here

/-- The loop ends as it does where only entries with `RNF_NORMAL` count. -/
def EndsQuietly (R : RadixStore) (stray : Caddr → RnNode → Nat → Bool) (v : Caddr) (rnB : UInt16)
    (fuel : Nat) (t : Tree) (mo first : Nat) (entries : List Nat) : Prop :=
  (∃ leaf s, loop (masksPass fuel R stray v rnB) (entries.length + 1)
    (⟨R.nodes, t.root, mo⟩, first) = some (.promoted leaf, s) ∧
      ¬ Unhit R rnB entries) ∨
    ∃ mo', loop (masksPass fuel R stray v rnB) (entries.length + 1) (⟨R.nodes, t.root, mo⟩, first) =
      some (.null, ⟨R.nodes, t.root, mo'⟩) ∧ Unhit R rnB entries

theorem EndsQuietly.goes {rm mo mo' : Nat} {entries : List Nat}
    (step : masksPass fuel R stray v rnB (⟨R.nodes, t.root, mo⟩, rm) =
      some (.again (⟨R.nodes, t.root, mo'⟩, (R.masks rm).next)))
    (here : (R.masks rm).flags.normal = true → (R.masks rm).b < rnB)
    (later : EndsQuietly R stray v rnB fuel t mo' (R.masks rm).next entries) :
    EndsQuietly R stray v rnB fuel t mo rm (rm :: entries) := by
  rw [EndsQuietly, Unhit.cons here, List.length_cons, loop_again step]
  exact later

/-- The loop comes to the entry `rm` before all others without `RNF_NORMAL`. -/
def Ahead (R : RadixStore) (rnB : UInt16) (entries : List Nat) (rm : Nat) : Prop :=
  ∃ before after, entries = before ++ rm :: after ∧ ∀ e ∈ before, Longer R rnB e

end Lists

section Climbing

variable {R : RadixStore} {stray : Caddr → RnNode → Nat → Bool} {v : Caddr} {rnB : UInt16}
  {fuel treetop off mo x : Nat} {s t : Tree}
  {E : Nat → List Nat}

structure Enough (R : RadixStore) (v : Caddr) (s : Tree) (E : Nat → List Nat) (fuel : Nat) : Prop where
  tree : s.addrs.length < fuel
  lists : ∀ t ∈ s.climb (turns R.nodes v), (E t.root).length < fuel

theorem Searchable.node (whole : Searchable R treetop off s E) (enough : Enough R v s E fuel)
    (member : t ∈ s.climb (turns R.nodes v)) :
    ∃ u, AtNode R v fuel t u ∧ (R.nodes u.l).p = t.root ∧ Lists R E t.root := by
  obtain ⟨q, holds⟩ := climb_holds whole.stands.holds t member
  have size : t.addrs.length ≤ s.addrs.length := by
    refine @climb_inherits _ s (fun t => t.addrs.length ≤ s.addrs.length) (fun a l r within => ?_)
      (Nat.le_refl _) t member
    simp only [Tree.addrs, List.length_cons, List.length_append] at within
    omega
  have inside := climb_addrs t member (t.root_mem holds)
  obtain ⟨a, l, r, rfl⟩ := climb_inner t member
  have holds' := holds
  obtain ⟨-, -, -, ⟨byte, links⟩, left, -⟩ := holds'
  exact ⟨_, ⟨links, fun m => maskedLeaf_tree holds (Nat.lt_of_le_of_lt size enough.tree)⟩, root_parent left,
    whole.lists a inside holds.2.1⟩

end Climbing

section Fuel

variable {R : RadixStore} {stray : Caddr → RnNode → Nat → Bool} {v : Caddr} {rnB : UInt16} {fuel fuel' : Nat}

end Fuel

structure Differs (R : RadixStore) (v : Caddr) (off : Nat) (s : Tree) (leaf : RnLeaf)
    (skip : Nat) : Prop where
  isLeaf : (R.nodes (s.leafOf R.nodes v)).leaf? = some leaf
  first : firstDiff v leaf.key off (leaf.vlen v) = some skip

def tried (R : RadixStore) (v : Caddr) (s : Tree) (leaf : RnLeaf) : List Nat :=
  if leaf.mask.isNone then (s.find R.nodes v).tail else s.find R.nodes v

section Matches

variable {R : RadixStore} {stray : Caddr → RnNode → Nat → Bool} {v : Caddr}
  {fuel treetop off skip : Nat} {s : Tree} {E : Nat → List Nat}
  {leaf : RnLeaf}

theorem Searchable.matches (whole : Searchable R treetop off s E) (enough : s.addrs.length < fuel)
    (isLeaf : (R.nodes (s.leafOf R.nodes v)).leaf? = some leaf) :
    rnMatch fuel R stray v treetop = matchLeaf fuel R stray v off (s.leafOf R.nodes v) leaf
      (leaf.vlen v) := by
  have searched : rnSearch fuel R.nodes v treetop = some (s.leafOf R.nodes v) := by
    have found := rnSearch_holds (v := v) whole.stands.holds
    rw [whole.stands.root] at found
    exact loop_mono found (Nat.lt_trans (depth_lt whole.stands.holds) enough) fun _ _ passed => passed
  obtain ⟨a, l, r, rfl⟩ := whole.inner
  obtain ⟨u, isNode, byte, -⟩ := whole.indexed.1
  have atTop : a = treetop := whole.stands.root
  have index := whole.index
  rw [← atTop] at index
  rw [rnMatch_eq (atTop ▸ isNode) searched isLeaf, byte, index, Nat.mul_div_cancel_left off (by decide)]

theorem Searchable.tested (whole : Searchable R treetop off s E)
    (isLeaf : (R.nodes (s.leafOf R.nodes v)).leaf? = some leaf) :
    Linked (dup R.nodes) (if leaf.mask.isNone then leaf.dupedkey else s.leafOf R.nodes v) (tried R v s leaf) ∧
      ∀ c ∈ tried R v s leaf, c ∈ s.find R.nodes v ∧ (maskOf R.nodes c).isSome = true := by
  obtain ⟨nonempty, -, linked, leaves⟩ := find_holds (v := v) whole.stands.holds
  have found : s.find R.nodes v ∈ s.chains := Tree.find_chains s
  have uniform := whole.uniform _ found
  rw [Tree.leafOf] at isLeaf ⊢
  simp only [tried]
  generalize s.find R.nodes v = chain at *
  have mask : maskOf R.nodes (chain.headD 0) = leaf.mask := by rw [maskOf, isLeaf]; rfl
  have masked : leaf.mask.isNone = false → ∀ c ∈ chain, (maskOf R.nodes c).isSome = true := by
    intro own
    rcases uniform with all | ⟨a, rfl⟩
    · exact all
    · intro c member
      rw [List.mem_singleton.mp member]
      change maskOf R.nodes a = leaf.mask at mask
      rw [mask, ← Option.not_isNone, own]
      rfl
  cases own : leaf.mask.isNone with
  | false =>
    simp only [Bool.false_eq_true, if_false]
    exact ⟨linked, fun c member => ⟨member, masked own c member⟩⟩
  | true =>
    cases chain with
    | nil => exact absurd rfl nonempty
    | cons a rest =>
      have next : dup R.nodes a = leaf.dupedkey := by
        change (R.nodes a).leaf? = some leaf at isLeaf
        rw [dup, isLeaf]
        rfl
      simp only [if_true, List.tail_cons]
      refine ⟨next ▸ linked.2.2, fun c member => ⟨List.mem_cons_of_mem _ member, ?_⟩⟩
      rcases uniform with all | ⟨b, alone⟩
      · exact all c (List.mem_cons_of_mem _ member)
      · cases alone
        cases member

/-- A leaf that the search tries has the bytes of `v` before the first difference, so that it covers
    `v` if it agrees from there on. -/
theorem Searchable.covers (whole : Searchable R treetop off s E)
    (differs : Differs R v off s leaf skip) {c : Nat} {other : RnLeaf}
    (inside : c ∈ s.find R.nodes v) (isOther : (R.nodes c).leaf? = some other) :
    Covers v other off ↔ Agrees v other skip := by
  obtain ⟨low, -, before⟩ := firstDiff_spec differs.first
  refine ⟨fun covers i least less => covers i (by omega) less, fun agrees i least less => ?_⟩
  by_cases later : skip ≤ i
  · exact agrees i later less
  · have within : other.span v ≤ (other.key 0).toNat := by
      unfold RnLeaf.span
      split <;> omega
    have found : s.find R.nodes v ∈ s.chains := Tree.find_chains s
    have key := whole.keys _ found c inside other isOther i least (by omega)
    rw [before i least (by omega), key, ← Tree.leafOf, keyOf_leaf differs.isLeaf, UInt8.xor_self,
      UInt8.zero_and]

theorem tried_length (enough : Enough R v s E fuel) :
    (tried R v s leaf).length < fuel := by
  refine Nat.lt_of_le_of_lt ?_ enough.tree
  have chain : (s.find R.nodes v).length ≤ s.addrs.length := find_along s ▸ along_length _ s
  rw [tried]
  split
  · rw [List.length_tail]
    omega
  · exact chain

theorem Searchable.stops (whole : Searchable R treetop off s E) (enough : Enough R v s E fuel)
    (differs : Differs R v off s leaf skip)
    {before after : List Nat} {c : Nat} (parts : tried R v s leaf = before ++ c :: after)
    (sooner : ∀ a ∈ before, Passed R v (unmatched v leaf.key skip) skip a)
    (bad : ¬ Passed R v (unmatched v leaf.key skip) skip c) :
    rnMatch fuel R stray v treetop = some (if (R.nodes c).flags.normal then .normal c
      else .satisfied c, R.nodes) := by
  obtain ⟨linked, masked⟩ := whole.tested differs.isLeaf
  have short := @tried_length R v fuel s E leaf enough
  rw [parts] at linked masked short
  rw [List.length_append, List.length_cons] at short
  have ran := loop_mono (duped_stops linked (fun c member => (masked c member).2) sooner bad)
    (show before.length + 1 ≤ fuel by omega)
    fun _ _ passed => passed
  rw [whole.matches enough.tree differs.isLeaf, matchLeaf, differs.first]
  simp only [ran]
  cases (R.nodes c).flags.normal <;> rfl

theorem Searchable.along_leaf (whole : Searchable R treetop off s E) :
    ∃ u, (R.nodes (s.leafOf R.nodes v)).leaf? = some u :=
  Option.isSome_iff_exists.mp whole.stands.find.2

end Matches

theorem Patricia.searchable {R : RadixStore} {treetop off : Nat} {s : Tree} {E : Nat → List Nat}
    (built : Patricia R.nodes treetop off s)
    (lists : ∀ a ∈ s.addrs, 0 ≤ (R.nodes a).b → Lists R E a)
    (masks : ∀ a ∈ s.addrs, ∀ m, maskOf R.nodes a = some m →
      ∀ rm mask, (R.masks rm).u = .mask mask → mask.addr = m.addr → mask = m) :
    Searchable R treetop off s E where
  stands := built.stands
  nodup := built.nodup
  inner := built.inner
  indexed := built.indexed
  index := built.index
  sound := built.sound
  uniform chain member := .inr (built.single chain member)
  keys := by
    intro chain member a inside leaf isLeaf i _ _
    obtain ⟨b, rfl⟩ := built.single chain member
    rw [List.mem_singleton.mp inside] at isLeaf
    rw [List.headD_cons, keyOf_leaf isLeaf]
  lists := lists
  masks := masks

end Embryo.Radix
