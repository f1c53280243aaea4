import Embryo.Machine.Linked
import Embryo.Radix.Match

namespace Embryo.Radix

open Embryo.Machine

def RadixNode.blank : RadixNode := ⟨0, 0, 0, 0, ⟨false, false, false⟩, .leaf ⟨⟨0, fun _ => 0⟩, none, 0⟩⟩

/-- The child of the inner node `a` on the side of `v`. -/
def child (nodes : Nat → RadixNode) (v : Caddr) (a : Nat) : Option Nat :=
  (nodes a).node?.map fun u => if v u.off &&& (nodes a).bmask ≠ 0 then u.r else u.l

/-- `do { p = x; ... } while(b > (ulong)x->rn_b)`, which ends with `p` and `x`. -/
def placePass (nodes : Nat → RadixNode) (v : Caddr) (b : Nat) (p : Nat) : Option (Pass Nat (Nat × Nat)) :=
  match child nodes v p with
  | none => none
  | some x => some (if (nodes x).b < 0 ∨ b ≤ (nodes x).b then .leave (p, x) else .again x)

def setChild (nodes : Nat → RadixNode) (v : Caddr) (p tt : Nat) : Option (Nat → RadixNode) :=
  (nodes p).node?.map fun u =>
    Function.update nodes p { nodes p with
      u := .node (if v u.off &&& (nodes p).bmask ≠ 0 then { u with r := tt } else { u with l := tt }) }

/-- The second half of `rn_insert`: the leaf `t` goes under the new inner node `tt`, between `p` and `x`. -/
def attach (nodes : Nat → RadixNode) (v : Caddr) (b t tt p x : Nat) : Option (Nat → RadixNode) :=
  match (nodes t).leaf? with
  | none => none
  | some leaf =>
    let off := b / 8
    let bmask : UInt8 := 0x80 >>> UInt8.ofNat (b % 8)
    let flags : RnFlags := ⟨false, true, false⟩
    let nodes := Function.update nodes t { nodes t with
      b := -1, p := tt, flags, u := .leaf { leaf with key := v } }
    match setChild nodes v p tt with
    | none => none
    | some nodes =>
      let nodes := Function.update nodes x { nodes x with p := tt }
      let u : RnNode := if v off &&& bmask ≠ 0 then ⟨off, x, t⟩ else ⟨off, t, x⟩
      some (Function.update nodes tt { nodes tt with b, bmask, flags, p, u := .node u })

/-- `rn_insert`: the leaf, whether it had been there before, and the nodes. -/
def rnInsert (fuel : Nat) (nodes : Nat → RadixNode) (v : Caddr) (treetop t tt : Nat) :
    Option (Nat × Bool × (Nat → RadixNode)) :=
  match (nodes treetop).node?, rnSearch fuel nodes v treetop with
  | some top, some found =>
    match (nodes found).leaf? with
    | none => none
    | some leaf =>
      match firstDiff v leaf.key top.off (v 0).toNat with
      | none => some (found, true, nodes)
      | some i =>
        let diff := (v i ^^^ leaf.key i).toNat
        let b := 8 * i + 7 - diff.log2
        match loop (placePass nodes v b) fuel treetop with
        | none => none
        | some (p, x) =>
          match attach nodes v b t tt p x with
          | none => none
          | some nodes => some (t, false, nodes)
  | _, _ => none

inductive Tree where
  | leaf (chain : List Nat)
  | node (a : Nat) (l r : Tree)

def Tree.addrs : Tree → List Nat
  | .leaf chain => chain
  | .node a l r => a :: (l.addrs ++ r.addrs)

def Tree.root : Tree → Nat
  | .leaf chain => chain.headD 0
  | .node a _ _ => a

def Tree.depth : Tree → Nat
  | .leaf _ => 0
  | .node _ l r => max l.depth r.depth + 1

def dup (nodes : Nat → RadixNode) (a : Nat) : Nat := ((nodes a).leaf?.map RnLeaf.dupedkey).getD 0

def Holds (nodes : Nat → RadixNode) (p : Nat) : Tree → Prop
  | .leaf chain => chain ≠ [] ∧ (nodes (chain.headD 0)).p = p ∧ Linked (dup nodes) (chain.headD 0) chain ∧
      ∀ a ∈ chain, (nodes a).b < 0 ∧ (nodes a).leaf?.isSome
  | .node a l r => a ≠ 0 ∧ 0 ≤ (nodes a).b ∧ (nodes a).p = p ∧
      (∃ off, (nodes a).node? = some ⟨off, l.root, r.root⟩) ∧ Holds nodes a l ∧ Holds nodes a r

/-- Whether `v` goes to the right at the inner node `a`. -/
def turns (nodes : Nat → RadixNode) (v : Caddr) (a : Nat) : Bool :=
  match (nodes a).node? with
  | some u => v u.off &&& (nodes a).bmask ≠ 0
  | none => false

def Tree.find (nodes : Nat → RadixNode) (v : Caddr) : Tree → List Nat
  | .leaf chain => chain
  | .node a l r => if turns nodes v a then r.find nodes v else l.find nodes v

variable {nodes nodes' : Nat → RadixNode} {v : Caddr}

theorem node?_of_leaf {n : RadixNode} (isLeaf : n.leaf?.isSome = true) : n.node? = none := by
  rw [RadixNode.leaf?] at isLeaf
  rw [RadixNode.node?]
  cases held : n.u with
  | leaf u => rfl
  | node u =>
    rw [held] at isLeaf
    cases isLeaf

theorem headD_mem {chain : List Nat} (nonempty : chain ≠ []) : chain.headD 0 ∈ chain := by
  cases chain with
  | nil => exact absurd rfl nonempty
  | cons h rest => exact List.mem_cons_self

theorem Tree.root_mem {s : Tree} {p : Nat} (holds : Holds nodes p s) : s.root ∈ s.addrs := by
  cases s with
  | leaf chain => exact headD_mem holds.1
  | node a l r => exact List.mem_cons_self

theorem Tree.find_subset (s : Tree) : ∀ a ∈ s.find nodes v, a ∈ s.addrs := by
  induction s with
  | leaf chain => exact fun a member => member
  | node a l r ihl ihr =>
    intro c member
    rw [Tree.find] at member
    rw [Tree.addrs]
    split at member
    · exact List.mem_cons_of_mem _ (List.mem_append_right _ (ihr c member))
    · exact List.mem_cons_of_mem _ (List.mem_append_left _ (ihl c member))

structure Like (nodes nodes' : Nat → RadixNode) (a : Nat) : Prop where
  kind : (nodes' a).b < 0 ↔ (nodes a).b < 0
  p : (nodes' a).p = (nodes a).p
  dup : dup nodes' a = dup nodes a
  isLeaf : (nodes' a).leaf?.isSome = (nodes a).leaf?.isSome
  node? : (nodes' a).node? = (nodes a).node?

theorem Like.of_same {a : Nat} (b : (nodes' a).b = (nodes a).b) (p : (nodes' a).p = (nodes a).p)
    (u : (nodes' a).u = (nodes a).u) :
    Like nodes nodes' a := by
  have leaf? : (nodes' a).leaf? = (nodes a).leaf? := by rw [RadixNode.leaf?, u, ← RadixNode.leaf?]
  refine ⟨by rw [b], p, ?_, by rw [leaf?], by rw [RadixNode.node?, u, ← RadixNode.node?]⟩
  rw [Radix.dup, Radix.dup, leaf?]

theorem Holds.alike {s : Tree} {p : Nat} (holds : Holds nodes p s)
    (like : ∀ a ∈ s.addrs, Like nodes nodes' a) : Holds nodes' p s := by
  induction s generalizing p with
  | leaf chain =>
    obtain ⟨nonempty, parent, linked, leaves⟩ := holds
    refine ⟨nonempty, (like _ (headD_mem nonempty)).p.trans parent, linked.congr fun a member =>
      (like a member).dup,
      fun a member => ?_⟩
    rw [(like a member).kind, (like a member).isLeaf]
    exact leaves a member
  | node a l r ihl ihr =>
    obtain ⟨nonzero, inner, parent, ⟨off, links⟩, left, right⟩ := holds
    have here := like a List.mem_cons_self
    refine ⟨nonzero, ?_, here.p.trans parent, ⟨off, here.node?.trans links⟩, ?_, ?_⟩
    · have kind := here.kind
      omega
    · exact ihl left fun c member => like c (List.mem_cons_of_mem _ (List.mem_append_left _ member))
    · exact ihr right fun c member => like c (List.mem_cons_of_mem _ (List.mem_append_right _ member))

theorem Holds.congr {s : Tree} {p : Nat} (holds : Holds nodes p s)
    (same : ∀ a ∈ s.addrs, (nodes' a).b = (nodes a).b ∧ (nodes' a).p = (nodes a).p ∧
      (nodes' a).u = (nodes a).u) :
    Holds nodes' p s :=
  holds.alike fun a member => .of_same (same a member).1 (same a member).2.1 (same a member).2.2

theorem find_congr {s : Tree}
    (same : ∀ a ∈ s.addrs, (nodes' a).bmask = (nodes a).bmask ∧ (nodes' a).node? = (nodes a).node?) :
    s.find nodes' v = s.find nodes v := by
  induction s with
  | leaf chain => rfl
  | node a l r ihl ihr =>
    have here := same a List.mem_cons_self
    have turn : turns nodes' v a = turns nodes v a := by
      rw [turns, turns, here.1, here.2]
    rw [Tree.find, Tree.find, turn, ihl fun c member =>
      same c (List.mem_cons_of_mem _ (List.mem_append_left _ member)),
      ihr fun c member => same c (List.mem_cons_of_mem _ (List.mem_append_right _ member))]

theorem child_holds {a p : Nat} {l r : Tree} (holds : Holds nodes p (.node a l r)) :
    child nodes v a = some (if turns nodes v a then r.root else l.root) := by
  obtain ⟨-, -, -, ⟨off, links⟩, -, -⟩ := holds
  simp only [child, turns, links, Option.map_some, decide_eq_true_eq]

theorem rnSearch_holds {s : Tree} {p : Nat} (holds : Holds nodes p s) :
    rnSearch (s.depth + 1) nodes v s.root = some ((s.find nodes v).headD 0) := by
  induction s generalizing p with
  | leaf chain =>
    obtain ⟨nonempty, -, -, leaves⟩ := holds
    exact loop_leave Nat.one_pos (if_pos (leaves _ (headD_mem nonempty)).1)
  | node a l r ihl ihr =>
    obtain ⟨-, inner, -, ⟨off, links⟩, left, right⟩ := holds
    have again : descendPass nodes (fun off bmask => v off &&& bmask ≠ 0) a =
        some (.again (if turns nodes v a then r.root else l.root)) := by
      rw [descendPass, if_neg (by omega)]
      simp only [links, turns]
    have steps := @loop_again _ _ _ (max l.depth r.depth + 1) _ _ again
    rw [Tree.depth, Tree.root, Tree.find, rnSearch, steps]
    by_cases turn : turns nodes v a = true
    · rw [if_pos turn, if_pos turn]
      exact loop_mono (ihr right) (by omega) fun _ _ passed => passed
    · rw [if_neg turn, if_neg turn]
      exact loop_mono (ihl left) (by omega) fun _ _ passed => passed

/-- Where a new leaf goes below an inner node: at a subtree whose bit is not before `b`. -/
def stops (nodes : Nat → RadixNode) (b x : Nat) : Prop := (nodes x).b < 0 ∨ (b : Int) ≤ (nodes x).b

instance (nodes : Nat → RadixNode) (b x : Nat) : Decidable (stops nodes b x) :=
  inferInstanceAs (Decidable (_ ∨ _))

/-- The subtree that `v` goes to, under the new inner node with the new leaf beside it. -/
def topped (t tt : Nat) (right : Bool) (s : Tree) : Tree :=
  if right then .node tt s (.leaf [t]) else .node tt (.leaf [t]) s

def Tree.grow (nodes : Nat → RadixNode) (v : Caddr) (b t tt : Nat) (right : Bool) : Tree → Tree
  | .leaf chain => .leaf chain
  | .node a l r =>
    if turns nodes v a then
      .node a l (if stops nodes b r.root then topped t tt right r else r.grow nodes v b t tt right)
    else .node a (if stops nodes b l.root then topped t tt right l else l.grow nodes v b t tt right) r

def newTurn (v : Caddr) (b : Nat) : Bool := v (b / 8) &&& (0x80 >>> UInt8.ofNat (b % 8)) ≠ 0

structure Attached (nodes nodes' : Nat → RadixNode) (v : Caddr) (b t tt p x : Nat) : Prop where
  new : ∃ leaf, (nodes t).leaf? = some leaf ∧
    nodes' t = { nodes t with
      b := -1, p := tt, flags := ⟨false, true, false⟩, u := .leaf { leaf with key := v } }
  inner : (nodes' tt).b = b ∧ (nodes' tt).p = p ∧ (nodes' tt).bmask = 0x80 >>> UInt8.ofNat (b % 8) ∧
    (nodes' tt).node? = some (if newTurn v b then ⟨b / 8, x, t⟩ else ⟨b / 8, t, x⟩)
  above : ∃ u, (nodes p).node? = some u ∧
    nodes' p = { nodes p with
      u := .node (if turns nodes v p then { u with r := tt } else { u with l := tt }) }
  below : nodes' x = { nodes x with p := tt }
  others : ∀ a, a ≠ t → a ≠ tt → a ≠ p → a ≠ x → nodes' a = nodes a

theorem attach_spec {b t tt p x : Nat} (attached : attach nodes v b t tt p x = some nodes')
    (px : p ≠ x) (tp : t ≠ p) (tx : t ≠ x)
    (ttp : tt ≠ p) (ttx : tt ≠ x) (ttt : t ≠ tt) : Attached nodes nodes' v b t tt p x := by
  unfold attach at attached
  split at attached
  · cases attached
  rename_i leaf isLeaf
  simp only [setChild, Function.update_of_ne tp.symm] at attached
  cases isNode : (nodes p).node? with
  | none =>
    rw [isNode] at attached
    cases attached
  | some u =>
    simp only [isNode, Option.map_some, Option.some.injEq] at attached
    subst attached
    have turn : turns nodes v p = decide (v u.off &&& (nodes p).bmask ≠ 0) := by simp only [turns, isNode]
    refine ⟨⟨leaf, isLeaf, ?_⟩, ⟨?_, ?_, ?_, ?_⟩, ⟨u, isNode, ?_⟩, ?_, fun a at' att ap ax => ?_⟩
    · rw [Function.update_of_ne ttt, Function.update_of_ne tx, Function.update_of_ne tp, Function.update_self]
    · rw [Function.update_self]
    · rw [Function.update_self]
    · rw [Function.update_self]
    · rw [Function.update_self]
      simp only [RadixNode.node?, newTurn, decide_eq_true_eq]
    · rw [Function.update_of_ne ttp.symm, Function.update_of_ne px, Function.update_self, turn]
      simp only [decide_eq_true_eq]
    · rw [Function.update_of_ne ttx.symm, Function.update_self, Function.update_of_ne px.symm,
        Function.update_of_ne tx.symm]
    · rw [Function.update_of_ne att, Function.update_of_ne ax, Function.update_of_ne ap,
        Function.update_of_ne at']

/-- The side of an inner node that `v` goes to. -/
def side (nodes : Nat → RadixNode) (v : Caddr) (a : Nat) (l r : Tree) : Tree :=
  if turns nodes v a then r else l

theorem placePass_holds {a q b : Nat} {l r : Tree} (holds : Holds nodes q (.node a l r)) :
    placePass nodes v b a = some (if stops nodes b (side nodes v a l r).root then
      .leave (a, (side nodes v a l r).root)
      else .again (side nodes v a l r).root) := by
  have turn : (if turns nodes v a then r.root else l.root) = (side nodes v a l r).root := by
    rw [side]
    split <;> rfl
  rw [placePass, child_holds holds, turn]
  rfl

theorem side_holds {a q : Nat} {l r : Tree} (holds : Holds nodes q (.node a l r))
    (nodup : (Tree.node a l r).addrs.Nodup) :
    Holds nodes a (side nodes v a l r) ∧ (side nodes v a l r).addrs.Nodup ∧ a ∉ (side nodes v a l r).addrs ∧
      ∀ c ∈ (side nodes v a l r).addrs, c ∈ (Tree.node a l r).addrs := by
  obtain ⟨-, -, -, -, left, right⟩ := holds
  obtain ⟨alone, both⟩ := List.nodup_cons.mp nodup
  obtain ⟨nodupL, nodupR, -⟩ := List.nodup_append.mp both
  rw [List.mem_append, not_or] at alone
  unfold side
  split
  · exact ⟨right, nodupR, alone.2, fun c member => List.mem_cons_of_mem _ (List.mem_append_right _ member)⟩
  · exact ⟨left, nodupL, alone.1, fun c member => List.mem_cons_of_mem _ (List.mem_append_left _ member)⟩

theorem placePass_leaf {chain : List Nat} {q b : Nat} (holds : Holds nodes q (.leaf chain)) :
    placePass nodes v b (Tree.leaf chain).root = none := by
  have none := node?_of_leaf (holds.2.2.2 _ (headD_mem holds.1)).2
  simp only [placePass, child, Tree.root, none, Option.map_none]

theorem placed_mem {s : Tree} {q b fuel p x : Nat} (holds : Holds nodes q s) (nodup : s.addrs.Nodup)
    (placed : loop (placePass nodes v b) fuel s.root = some (p, x)) :
    p ∈ s.addrs ∧ x ∈ s.addrs ∧ x ≠ s.root ∧ p ≠ x := by
  induction fuel generalizing s q with
  | zero => cases placed
  | succ fuel ih =>
    cases s with
    | leaf chain =>
      simp only [loop, placePass_leaf holds] at placed
      cases placed
    | node a l r =>
      obtain ⟨below, nodup', alone, subset⟩ := side_holds (v := v) holds nodup
      have root := Tree.root_mem below
      have pass := placePass_holds (b := b) (v := v) holds
      change loop (placePass nodes v b) (fuel + 1) a = some (p, x) at placed
      by_cases stop : stops nodes b (side nodes v a l r).root
      · rw [if_pos stop] at pass
        simp only [loop, pass, Option.some.injEq, Prod.mk.injEq] at placed
        obtain ⟨rfl, rfl⟩ := placed
        have other : (side nodes v a l r).root ≠ a := by
          intro same
          rw [same] at root
          exact alone root
        exact ⟨List.mem_cons_self, subset _ root, other, other.symm⟩
      · rw [if_neg stop] at pass
        simp only [loop, pass] at placed
        obtain ⟨memP, memX, -, apart⟩ := ih below nodup' placed
        exact ⟨subset p memP, subset x memX, fun (same : x = a) => alone (same ▸ memX), apart⟩

theorem Holds.reparent {s : Tree} {q tt : Nat} (holds : Holds nodes q s) (nodup : s.addrs.Nodup)
    (same : ∀ a ∈ s.addrs, a ≠ s.root → nodes' a = nodes a)
    (root : nodes' s.root = { nodes s.root with p := tt }) :
    Holds nodes' tt s := by
  have fields : ∀ a ∈ s.addrs, (nodes' a).b = (nodes a).b ∧ (nodes' a).u = (nodes a).u := by
    intro a member
    by_cases here : a = s.root
    · rw [here, root]
      exact ⟨rfl, rfl⟩
    · rw [same a member here]
      exact ⟨rfl, rfl⟩
  cases s with
  | leaf chain =>
    obtain ⟨nonempty, -, linked, leaves⟩ := holds
    refine ⟨nonempty, ?_, linked.congr fun a member => ?_, fun a member => ?_⟩
    · exact congrArg RadixNode.p root
    · rw [dup, dup, RadixNode.leaf?, (fields a member).2, ← RadixNode.leaf?]
    · rw [(fields a member).1, RadixNode.leaf?, (fields a member).2, ← RadixNode.leaf?]
      exact leaves a member
  | node a l r =>
    obtain ⟨nonzero, inner, -, ⟨off, links⟩, left, right⟩ := holds
    obtain ⟨alone, -⟩ := List.nodup_cons.mp nodup
    rw [List.mem_append, not_or] at alone
    change nodes' a = { nodes a with p := tt } at root
    refine ⟨nonzero, by rw [root]; exact inner, by rw [root], ⟨off, by rw [root]; exact links⟩, ?_, ?_⟩
    · apply left.congr
      intro c member
      rw [same c (List.mem_cons_of_mem _ (List.mem_append_left _ member)) fun (here : c = a) =>
        alone.1 (here ▸ member)]
      exact ⟨rfl, rfl, rfl⟩
    · apply right.congr
      intro c member
      rw [same c (List.mem_cons_of_mem _ (List.mem_append_right _ member)) fun (here : c = a) =>
        alone.2 (here ▸ member)]
      exact ⟨rfl, rfl, rfl⟩

theorem topped_root (t tt : Nat) (right : Bool) (s : Tree) : (topped t tt right s).root = tt := by
  cases right <;> rfl

theorem topped_holds {s : Tree} {q b t tt p : Nat} (holds : Holds nodes q s) (nodup : s.addrs.Nodup)
    (attached : Attached nodes nodes' v b t tt p s.root) (blank : nodes t = RadixNode.blank)
    (nonzero : t ≠ 0 ∧ tt ≠ 0) (fresh : t ∉ s.addrs ∧ tt ∉ s.addrs ∧ p ∉ s.addrs) :
    Holds nodes' p (topped t tt (newTurn v b) s) ∧ (topped t tt (newTurn v b) s).find nodes' v = [t] := by
  obtain ⟨bit, parent, bmask, links⟩ := attached.inner
  obtain ⟨leaf, isLeaf, new⟩ := attached.new
  have left : Holds nodes' tt s := by
    refine holds.reparent nodup (fun a member other => attached.others a ?_ ?_ ?_ other) attached.below
    · exact fun same => fresh.1 (same ▸ member)
    · exact fun same => fresh.2.1 (same ▸ member)
    · exact fun same => fresh.2.2 (same ▸ member)
  have alone : Holds nodes' tt (.leaf [t]) := by
    have last : dup nodes' t = 0 := by
      rw [blank] at isLeaf
      cases isLeaf
      simp only [dup, new, RadixNode.leaf?, Option.map_some, Option.getD_some]
    refine ⟨List.cons_ne_nil _ _, ?_, ⟨rfl, nonzero.1, last⟩, fun a member => ?_⟩
    · simp only [List.headD_cons, new]
    · rw [List.mem_singleton.mp member, new]
      exact ⟨show (-1 : Int) < 0 by decide, rfl⟩
  have turn : turns nodes' v tt = newTurn v b := by
    have off : ∀ right : Bool, (if right then (⟨b / 8, s.root, t⟩ : RnNode)
        else ⟨b / 8, t, s.root⟩).off = b / 8 := by
      intro right
      cases right <;> rfl
    simp only [turns, links, off, bmask]
    rfl
  have inner : 0 ≤ (nodes' tt).b := by
    rw [bit]
    omega
  rw [topped]
  cases turned : newTurn v b with
  | false =>
    rw [turned] at links turn
    refine ⟨⟨nonzero.2, inner, parent, ⟨_, links⟩, alone, left⟩, ?_⟩
    rw [if_neg Bool.false_ne_true, Tree.find, turn]
    rfl
  | true =>
    rw [turned] at links turn
    refine ⟨⟨nonzero.2, inner, parent, ⟨_, links⟩, left, alone⟩, ?_⟩
    rw [if_pos rfl, Tree.find, turn]
    rfl

theorem Tree.grow_node {a b t tt : Nat} {l r : Tree} {right : Bool} :
    (Tree.node a l r).grow nodes v b t tt right =
      let s := side nodes v a l r
      let s' := if stops nodes b s.root then topped t tt right s else s.grow nodes v b t tt right
      if turns nodes v a then .node a l s' else .node a s' r := by
  rw [Tree.grow]
  dsimp only [side]
  split <;> rfl

theorem Tree.grow_root {b t tt : Nat} {right : Bool} (s : Tree) :
    (s.grow nodes v b t tt right).root = s.root := by
  cases s with
  | leaf chain => rfl
  | node a l r =>
    rw [Tree.grow]
    split <;> rfl

theorem Holds.replace {a q : Nat} {l r s' : Tree} (holds : Holds nodes q (.node a l r))
    (nodup : (Tree.node a l r).addrs.Nodup)
    (bit : (nodes' a).b = (nodes a).b) (parent : (nodes' a).p = (nodes a).p)
    (bmask : (nodes' a).bmask = (nodes a).bmask)
    (links : ∃ u, (nodes a).node? = some u ∧ (nodes' a).node? =
      some (if turns nodes v a then { u with r := s'.root } else { u with l := s'.root }))
    (same : ∀ c, c ∉ (side nodes v a l r).addrs → c ∈ (Tree.node a l r).addrs → c ≠ a →
      nodes' c = nodes c) (below : Holds nodes' a s') :
    Holds nodes' q (if turns nodes v a then .node a l s' else .node a s' r) ∧
      (if turns nodes v a then Tree.node a l s' else .node a s' r).find nodes' v = s'.find nodes' v := by
  obtain ⟨nonzero, inner, up, ⟨off, old⟩, left, right⟩ := holds
  obtain ⟨u, isNode, links⟩ := links
  rw [isNode, Option.some.injEq] at old
  subst old
  obtain ⟨alone, both⟩ := List.nodup_cons.mp nodup
  rw [List.mem_append, not_or] at alone
  have disjoint := (List.nodup_append.mp both).2.2
  have turn : turns nodes' v a = turns nodes v a := by
    have off' : ∀ right : Bool, (if right then (⟨off, l.root, s'.root⟩ : RnNode)
        else ⟨off, s'.root, r.root⟩).off = off := by
      intro right
      cases right <;> rfl
    simp only [turns, links, isNode, off', bmask]
  by_cases turned : turns nodes v a = true
  · simp only [side, turned, if_true] at same links turn ⊢
    refine ⟨⟨nonzero, bit ▸ inner, parent.trans up, ⟨off, links⟩, left.congr fun c member => ?_, below⟩, ?_⟩
    · have here : c ≠ a := fun held => alone.1 (held ▸ member)
      rw [same c (fun there => disjoint c member c there rfl)
        (List.mem_cons_of_mem _ (List.mem_append_left _ member)) here]
      exact ⟨rfl, rfl, rfl⟩
    · rw [Tree.find, if_pos turn]
  · simp only [Bool.not_eq_true] at turned
    simp only [side, turned, Bool.false_eq_true, if_false] at same links turn ⊢
    refine ⟨⟨nonzero, bit ▸ inner, parent.trans up, ⟨off, links⟩, below, right.congr fun c member => ?_⟩, ?_⟩
    · have here : c ≠ a := fun held => alone.2 (held ▸ member)
      rw [same c (fun there => disjoint c there c member rfl)
        (List.mem_cons_of_mem _ (List.mem_append_right _ member)) here]
      exact ⟨rfl, rfl, rfl⟩
    · rw [Tree.find, turn, if_neg Bool.false_ne_true]

theorem grow_holds {s : Tree} {q b t tt p x fuel : Nat} (holds : Holds nodes q s) (nodup : s.addrs.Nodup)
    (placed : loop (placePass nodes v b) fuel s.root = some (p, x))
    (attached : Attached nodes nodes' v b t tt p x)
    (blank : nodes t = RadixNode.blank) (nonzero : t ≠ 0 ∧ tt ≠ 0) (fresh : t ∉ s.addrs ∧ tt ∉ s.addrs) :
    Holds nodes' q (s.grow nodes v b t tt (newTurn v b)) ∧
      (s.grow nodes v b t tt (newTurn v b)).find nodes' v = [t] := by
  induction fuel generalizing s q with
  | zero => cases placed
  | succ fuel ih =>
    cases s with
    | leaf chain =>
      simp only [loop, placePass_leaf holds] at placed
      cases placed
    | node a l r =>
      obtain ⟨below, nodup', alone, subset⟩ := side_holds (v := v) holds nodup
      obtain ⟨off, isNode⟩ := holds.2.2.2.1
      have pass := placePass_holds (b := b) (v := v) holds
      change loop (placePass nodes v b) (fuel + 1) a = some (p, x) at placed
      rw [Tree.grow_node]
      dsimp only
      have here : t ≠ a ∧ tt ≠ a := ⟨fun same => fresh.1 (same ▸ List.mem_cons_self), fun same =>
        fresh.2 (same ▸ List.mem_cons_self)⟩
      have fresh' : t ∉ (side nodes v a l r).addrs ∧ tt ∉ (side nodes v a l r).addrs :=
        ⟨fun there => fresh.1 (subset t there), fun there => fresh.2 (subset tt there)⟩
      by_cases stop : stops nodes b (side nodes v a l r).root
      · -- between this node and the subtree
        rw [if_pos stop] at pass ⊢
        simp only [loop, pass, Option.some.injEq, Prod.mk.injEq] at placed
        obtain ⟨atP, atX⟩ := placed
        subst atP atX
        obtain ⟨new, found⟩ := topped_holds below nodup' attached blank nonzero ⟨fresh'.1, fresh'.2, alone⟩
        obtain ⟨u, isNode', above⟩ := attached.above
        have replaced := @Holds.replace nodes nodes' v a q l r _ holds nodup (by rw [above])
          (by rw [above]) (by rw [above])
          ⟨u, isNode', by rw [above, topped_root]; rfl⟩ (fun c other member away =>
            attached.others c (fun same => fresh.1 (same ▸ member))
            (fun same => fresh.2 (same ▸ member)) away fun same => other (same ▸ Tree.root_mem below)) new
        exact ⟨replaced.1, replaced.2.trans found⟩
      · -- further down
        rw [if_neg stop] at pass ⊢
        simp only [loop, pass] at placed
        obtain ⟨new, found⟩ := ih below nodup' placed fresh'
        obtain ⟨memP, memX, -, -⟩ := placed_mem below nodup' placed
        have away : a ≠ p ∧ a ≠ x := ⟨fun same => alone (same ▸ memP), fun same => alone (same ▸ memX)⟩
        have kept := attached.others a here.1.symm here.2.symm away.1 away.2
        have replaced := @Holds.replace nodes nodes' v a q l r _ holds nodup (by rw [kept])
          (by rw [kept]) (by rw [kept])
          ⟨_, isNode, by
            rw [kept, isNode, Tree.grow_root, side]
            cases turns nodes v a <;> rfl⟩ (fun c other member away =>
              attached.others c (fun same => fresh.1 (same ▸ member))
            (fun same => fresh.2 (same ▸ member)) (fun same => other (same ▸ memP)) fun same =>
              other (same ▸ memX)) new
        exact ⟨replaced.1, replaced.2.trans found⟩

theorem Tree.grow_addrs {b t tt : Nat} {right : Bool} (s : Tree) :
    (s.grow nodes v b t tt right).addrs.Perm s.addrs ∨
      (s.grow nodes v b t tt right).addrs.Perm (t :: tt :: s.addrs) := by
  have top : ∀ s : Tree, (topped t tt right s).addrs.Perm (t :: tt :: s.addrs) := by
    intro s
    cases right
    · exact List.Perm.swap t tt s.addrs
    · exact (List.perm_append_comm.cons tt).trans (List.Perm.swap t tt s.addrs)
  induction s with
  | leaf chain => exact .inl (List.Perm.refl _)
  | node a l r ihl ihr =>
    have put : ∀ {c c' : Tree}, (c'.addrs.Perm c.addrs ∨ c'.addrs.Perm (t :: tt :: c.addrs)) →
      ∀ front : List Nat,
        (a :: (front ++ c'.addrs)).Perm (a :: (front ++ c.addrs)) ∨
            (a :: (front ++ c'.addrs)).Perm (t :: tt :: a :: (front ++ c.addrs)) := by
      intro c c' either front
      rcases either with same | more
      · exact .inl ((same.append_left front).cons a)
      · right
        have first : (a :: (front ++ c'.addrs)).Perm (a :: front ++ t :: tt :: c.addrs) :=
          (more.append_left front).cons a
        exact (first.trans List.perm_middle).trans (List.perm_middle.cons t)
    rw [Tree.grow]
    split
    · split
      · exact put (.inr (top r)) l.addrs
      · exact put ihr l.addrs
    · have swap : ∀ c c' : Tree, (Tree.node a c c').addrs.Perm (a :: (c'.addrs ++ c.addrs)) :=
        fun c c' => List.perm_append_comm.cons a
      have back : ∀ {c' : Tree}, (c'.addrs.Perm l.addrs ∨ c'.addrs.Perm (t :: tt :: l.addrs)) →
          (Tree.node a c' r).addrs.Perm (Tree.node a l r).addrs ∨
              (Tree.node a c' r).addrs.Perm (t :: tt :: (Tree.node a l r).addrs) := by
        intro c' either
        rcases put either r.addrs with same | more
        · exact .inl ((swap c' r).trans (same.trans (swap l r).symm))
        · exact .inr ((swap c' r).trans (more.trans (((swap l r).symm.cons tt).cons t)))
      split
      · exact back (.inr (top l))
      · exact back ihl

def Tree.chains : Tree → List (List Nat)
  | .leaf chain => [chain]
  | .node _ l r => l.chains ++ r.chains

theorem Tree.grow_chains {b t tt : Nat} {right : Bool} (s : Tree) :
    ∀ chain ∈ (s.grow nodes v b t tt right).chains, chain = [t] ∨ chain ∈ s.chains := by
  have top : ∀ s : Tree, ∀ chain ∈ (topped t tt right s).chains, chain = [t] ∨ chain ∈ s.chains := by
    intro s chain member
    cases right
    · exact List.mem_cons.mp member
    · exact (List.mem_append.mp member).symm.imp_left List.mem_singleton.mp
  induction s with
  | leaf chain => exact fun chain member => .inr member
  | node a l r ihl ihr =>
    intro chain member
    rw [Tree.grow] at member
    have both : ∀ {s : Tree}, chain = [t] ∨ chain ∈ s.chains →
      (∀ c ∈ s.chains, c ∈ (Tree.node a l r).chains) →
        chain = [t] ∨ chain ∈ (Tree.node a l r).chains := fun either subset => either.imp_right (subset chain)
    split at member
    · rcases List.mem_append.mp member with left | right
      · exact .inr (List.mem_append_left _ left)
      · refine @both r ?_ fun c inside => List.mem_append_right _ inside
        split at right
        · exact top r chain right
        · exact ihr chain right
    · rcases List.mem_append.mp member with left | right
      · refine @both l ?_ fun c inside => List.mem_append_left _ inside
        split at left
        · exact top l chain left
        · exact ihl chain left
      · exact .inr (List.mem_append_right _ right)

theorem Tree.find_chains (s : Tree) : s.find nodes v ∈ s.chains := by
  induction s with
  | leaf chain => exact List.mem_singleton_self chain
  | node a l r ihl ihr =>
    rw [Tree.find]
    split
    · exact List.mem_append_right _ ihr
    · exact List.mem_append_left _ ihl

theorem Tree.chains_subset (s : Tree) : ∀ chain ∈ s.chains, ∀ c ∈ chain, c ∈ s.addrs := by
  induction s with
  | leaf chain =>
    intro chain' member c inside
    rw [List.mem_singleton.mp member] at inside
    exact inside
  | node a l r ihl ihr =>
    intro chain member c inside
    rcases List.mem_append.mp member with left | right
    · exact List.mem_cons_of_mem _ (List.mem_append_left _ (ihl chain left c inside))
    · exact List.mem_cons_of_mem _ (List.mem_append_right _ (ihr chain right c inside))

/-- What `rn_insert` has done when the key was not in the tree: the tree is now `s'`. -/
structure Inserted (nodes nodes' : Nat → RadixNode) (v : Caddr) (q : Nat) (s s' : Tree)
    (t tt : Nat) : Prop where
  holds : Holds nodes' q s'
  root : s'.root = s.root
  found : s'.find nodes' v = [t]
  addrs : s'.addrs.Perm s.addrs ∨ s'.addrs.Perm (t :: tt :: s.addrs)
  chains : ∀ chain ∈ s'.chains, chain = [t] ∨ chain ∈ s.chains
  leaves : ∀ c ∈ s.addrs, (nodes c).leaf?.isSome = true → (nodes' c).b = (nodes c).b ∧
    (nodes' c).u = (nodes c).u
  inner : (nodes' tt).b ≥ 0
  new : (nodes' t).b = -1 ∧ (nodes' t).leaf? = some ⟨v, none, 0⟩ ∧ (nodes' t).flags.normal = false
  bits : ∀ c ∈ s.addrs, (nodes' c).b = (nodes c).b
  others : ∀ c, c ∉ s.addrs → c ≠ t → c ≠ tt → nodes' c = nodes c

theorem rnInsert_spec {s : Tree} {q t tt fuel r : Nat} {isduped : Bool} (holds : Holds nodes q s)
    (nodup : s.addrs.Nodup) (blank : nodes t = RadixNode.blank) (nonzero : t ≠ 0 ∧ tt ≠ 0)
    (fresh : t ∉ s.addrs ∧ tt ∉ s.addrs) (apart : t ≠ tt)
    (inserted : rnInsert fuel nodes v s.root t tt = some (r, isduped, nodes')) :
    (isduped = true ∧ nodes' = nodes ∧ r = (s.find nodes v).headD 0) ∨
      (isduped = false ∧ r = t ∧ ∃ s', Inserted nodes nodes' v q s s' t tt) := by
  unfold rnInsert at inserted
  cases isTop : (nodes s.root).node? with
  | none =>
    rw [isTop] at inserted
    cases inserted
  | some top =>
    cases searched : rnSearch fuel nodes v s.root with
    | none =>
      rw [isTop, searched] at inserted
      cases inserted
    | some found =>
      obtain rfl := loop_unique (rnSearch_holds (v := v) holds) searched
      simp only [isTop, searched] at inserted
      cases isLeaf : (nodes ((s.find nodes v).headD 0)).leaf? with
      | none =>
        rw [isLeaf] at inserted
        cases inserted
      | some leaf =>
        simp only [isLeaf] at inserted
        split at inserted
        · cases inserted
          exact .inl ⟨rfl, rfl, rfl⟩
        · rename_i i differs
          generalize 8 * i + 7 - ((v i ^^^ leaf.key i).toNat).log2 = b at inserted
          split at inserted
          · cases inserted
          rename_i p x placed
          split at inserted
          · cases inserted
          rename_i after attached
          cases inserted
          obtain ⟨memP, memX, other, px⟩ := placed_mem holds nodup placed
          have tp : t ≠ p := fun same => fresh.1 (same ▸ memP)
          have tx : t ≠ x := fun same => fresh.1 (same ▸ memX)
          have ttp : tt ≠ p := fun same => fresh.2 (same ▸ memP)
          have ttx : tt ≠ x := fun same => fresh.2 (same ▸ memX)
          have spec := attach_spec attached px tp tx ttp ttx apart
          obtain ⟨held, ends⟩ := grow_holds holds nodup placed spec blank nonzero fresh
          obtain ⟨u, isNode, above⟩ := spec.above
          obtain ⟨new, isNew, atT⟩ := spec.new
          have bits : ∀ c ∈ s.addrs, (nodes' c).b = (nodes c).b := by
            intro c member
            by_cases atP : c = p
            · rw [atP, above]
            by_cases atX : c = x
            · rw [atX, spec.below]
            · rw [spec.others c (fun same => fresh.1 (same ▸ member)) (fun same =>
                fresh.2 (same ▸ member)) atP atX]
          refine .inr ⟨rfl, rfl, _, held, Tree.grow_root s, ends, Tree.grow_addrs s,
            Tree.grow_chains s, ?_, ?_, ?_, bits, ?_⟩
          · intro c member leafC
            refine ⟨bits c member, ?_⟩
            have atP : c ≠ p := by
              rintro rfl
              rw [node?_of_leaf leafC] at isNode
              cases isNode
            by_cases atX : c = x
            · rw [atX, spec.below]
            · rw [spec.others c (fun same => fresh.1 (same ▸ member)) (fun same =>
                fresh.2 (same ▸ member)) atP atX]
          · rw [spec.inner.1]
            omega
          · rw [blank] at isNew
            cases isNew
            rw [atT]
            exact ⟨rfl, rfl, rfl⟩
          · intro c outside ct ctt
            exact spec.others c ct ctt (fun same => outside (same ▸ memP)) fun same => outside (same ▸ memX)

end Embryo.Radix
