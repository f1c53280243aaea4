import Embryo.Radix.Route

namespace Embryo.Radix

open Embryo.Machine

variable {nodes nodes' : Nat → RadixNode} {v : Caddr}

/-- The tree with another chain where a search for `v` ends. -/
def Tree.rechain (nodes : Nat → RadixNode) (v : Caddr) (new : List Nat) : Tree → Tree
  | .leaf _ => .leaf new
  | .node a l r =>
    if turns nodes v a then .node a l (r.rechain nodes v new) else .node a (l.rechain nodes v new) r

theorem Tree.rechain_node {a : Nat} {l r : Tree} {new : List Nat} :
    (Tree.node a l r).rechain nodes v new =
      if turns nodes v a then .node a l ((side nodes v a l r).rechain nodes v new)
      else .node a ((side nodes v a l r).rechain nodes v new) r := by
  rw [Tree.rechain]
  dsimp only [side]
  split <;> rfl

theorem Tree.find_side {a : Nat} {l r : Tree} :
    (Tree.node a l r).find nodes v = (side nodes v a l r).find nodes v := by
  rw [Tree.find, side]
  split <;> rfl

theorem parent_links {s : Tree} {q : Nat} (holds : Holds nodes q s) (nodup : s.addrs.Nodup)
    (inner : ∃ a l r, s = .node a l r) :
    let head := (s.find nodes v).headD 0
    (nodes head).p ∈ s.addrs ∧ ∃ u, (nodes (nodes head).p).node? = some u ∧
      (if turns nodes v (nodes head).p then u.r = head ∧ u.l ≠ head else u.l = head) := by
  intro head
  induction s generalizing q with
  | leaf chain =>
    obtain ⟨a, l, r, same⟩ := inner
    cases same
  | node a l r ihl ihr =>
    obtain ⟨below, nodup', alone, subset⟩ := side_holds (v := v) holds nodup
    obtain ⟨off, isNode⟩ := holds.2.2.2.1
    have found : (Tree.node a l r).find nodes v = (side nodes v a l r).find nodes v := Tree.find_side
    cases kind : side nodes v a l r with
    | leaf chain =>
      rw [kind] at below found
      have parent : (nodes head).p = a := by
        simp only [head, found]
        exact below.2.1
      have root : (side nodes v a l r).root = head := by
        rw [kind]
        simp only [head, found]
        rfl
      refine ⟨parent ▸ List.mem_cons_self, ⟨off, l.root, r.root⟩, parent ▸ isNode, ?_⟩
      rw [parent]
      by_cases turned : turns nodes v a = true
      · rw [if_pos turned]
        rw [side, if_pos turned] at root
        refine ⟨root, fun same => ?_⟩
        have disjoint := (List.nodup_append.mp (List.nodup_cons.mp nodup).2).2.2
        exact disjoint _ (Tree.root_mem holds.2.2.2.2.1) _ (Tree.root_mem holds.2.2.2.2.2)
          (same.trans root.symm)
      · rw [if_neg turned]
        rw [side, if_neg turned] at root
        exact root
    | node a' l' r' =>
      have step : (nodes head).p ∈ (side nodes v a l r).addrs ∧ ∃ u, (nodes (nodes head).p).node? = some u ∧
          (if turns nodes v (nodes head).p then u.r = head ∧ u.l ≠ head else u.l = head) := by
        have heads : head = ((side nodes v a l r).find nodes v).headD 0 :=
          congrArg (fun chain => chain.headD 0) found
        rw [heads]
        by_cases turned : turns nodes v a = true
        · simp only [side, if_pos turned] at below nodup' kind ⊢
          exact ihr below nodup' ⟨a', l', r', kind⟩
        · simp only [side, if_neg turned] at below nodup' kind ⊢
          exact ihl below nodup' ⟨a', l', r', kind⟩
      exact ⟨subset _ step.1, step.2⟩

theorem Tree.rechain_root {new : List Nat} {s : Tree} (inner : ∃ a l r, s = .node a l r) :
    (s.rechain nodes v new).root = s.root := by
  obtain ⟨a, l, r, rfl⟩ := inner
  rw [Tree.rechain]
  split <;> rfl

/-- The tree holds with another chain in it, when the link to its head is the only thing that
    changes elsewhere. -/
theorem rechain_holds {s : Tree} {q : Nat} {new : List Nat} (holds : Holds nodes q s) (nodup : s.addrs.Nodup)
    (inner : ∃ a l r, s = .node a l r)
    (parent : ∃ u, (nodes (nodes ((s.find nodes v).headD 0)).p).node? = some u ∧
      nodes' (nodes ((s.find nodes v).headD 0)).p = { nodes (nodes ((s.find nodes v).headD 0)).p with
        u := .node (if turns nodes v (nodes ((s.find nodes v).headD 0)).p then
          { u with r := new.headD 0 } else { u with l := new.headD 0 }) })
    (others : ∀ c ∈ s.addrs, c ∉ s.find nodes v → c ≠ (nodes ((s.find nodes v).headD 0)).p →
      nodes' c = nodes c)
    (chain : Holds nodes' (nodes ((s.find nodes v).headD 0)).p (.leaf new)) :
    Holds nodes' q (s.rechain nodes v new) ∧ (s.rechain nodes v new).find nodes' v = new := by
  induction s generalizing q with
  | leaf chain =>
    obtain ⟨a, l, r, same⟩ := inner
    cases same
  | node a l r ihl ihr =>
    obtain ⟨below, nodup', alone, subset⟩ := side_holds (v := v) holds nodup
    obtain ⟨off, isNode⟩ := holds.2.2.2.1
    simp only [Tree.find_side] at parent others chain
    rw [Tree.rechain_node]
    cases kind : side nodes v a l r with
    | leaf old =>
      have up : (nodes (((side nodes v a l r).find nodes v).headD 0)).p = a := by
        rw [kind] at below ⊢
        exact below.2.1
      rw [up] at parent others chain
      obtain ⟨u, isNode', above⟩ := parent
      have replaced := @Holds.replace nodes nodes' v a q l r (.leaf new) holds nodup (by rw [above])
        (by rw [above]) (by rw [above])
        ⟨u, isNode', by rw [above]; rfl⟩ (fun c other member away =>
          others c member (fun inside => other (Tree.find_subset _ c inside)) away)
        chain
      exact ⟨replaced.1, replaced.2⟩
    | node a' l' r' =>
      have inner' : ∃ a' l' r', side nodes v a l r = .node a' l' r' := ⟨a', l', r', kind⟩
      rw [← kind]
      obtain ⟨up, -⟩ := parent_links (v := v) below nodup' inner'
      have elsewhere : (nodes (((side nodes v a l r).find nodes v).headD 0)).p ≠ a := by
        intro same
        rw [same] at up
        exact alone up
      have kept : nodes' a = nodes a :=
        others a List.mem_cons_self (fun inside => alone (Tree.find_subset _ a inside)) elsewhere.symm
      have step : Holds nodes' a ((side nodes v a l r).rechain nodes v new) ∧
          ((side nodes v a l r).rechain nodes v new).find nodes' v = new := by
        have others' := fun c member => others c (subset c member)
        by_cases turned : turns nodes v a = true
        · simp only [side, if_pos turned] at below nodup' parent others' chain inner' ⊢
          exact ihr below nodup' inner' parent others' chain
        · simp only [side, if_neg turned] at below nodup' parent others' chain inner' ⊢
          exact ihl below nodup' inner' parent others' chain
      have replaced := @Holds.replace nodes nodes' v a q l r _ holds nodup (by rw [kept])
        (by rw [kept]) (by rw [kept])
        ⟨_, isNode, by
          rw [kept, isNode, Tree.rechain_root inner', side]
          cases turns nodes v a <;> rfl⟩
        (fun c other member away => others c member (fun inside =>
          other (Tree.find_subset _ c inside)) fun same => other (same ▸ up)) step.1
      exact ⟨replaced.1, replaced.2.trans step.2⟩

theorem Tree.rechain_addrs {t : Nat} {new : List Nat} {s : Tree} (more : new.Perm (t :: s.find nodes v)) :
    (s.rechain nodes v new).addrs.Perm (t :: s.addrs) := by
  induction s with
  | leaf chain => exact more
  | node a l r ihl ihr =>
    rw [Tree.find] at more
    rw [Tree.rechain]
    split at more
    · rename_i turned
      rw [if_pos turned]
      have first : (Tree.node a l (r.rechain nodes v new)).addrs.Perm
        (a :: l.addrs ++ t :: r.addrs) := ((ihr more).append_left l.addrs).cons a
      exact first.trans List.perm_middle
    · rename_i turned
      rw [if_neg turned]
      have first : (Tree.node a (l.rechain nodes v new) r).addrs.Perm (a :: t :: (l.addrs ++ r.addrs)) :=
        ((ihl more).append_right r.addrs).cons a
      exact first.trans (List.Perm.swap t a _)

theorem Tree.rechain_chains {new : List Nat} (s : Tree) :
    ∀ chain ∈ (s.rechain nodes v new).chains, chain = new ∨ chain ∈ s.chains ∧
      (s.addrs.Nodup → ∀ c ∈ chain, c ∉ s.find nodes v) := by
  induction s with
  | leaf chain => exact fun chain' member => .inl (List.mem_singleton.mp member)
  | node a l r ihl ihr =>
    intro chain member
    rw [Tree.rechain] at member
    rw [Tree.find]
    have parts : (Tree.node a l r).addrs.Nodup → l.addrs.Nodup ∧ r.addrs.Nodup ∧
        ∀ c ∈ l.addrs, c ∉ r.addrs := by
      intro nodup
      obtain ⟨left, right, apart⟩ := List.nodup_append.mp (List.nodup_cons.mp nodup).2
      exact ⟨left, right, fun c inside there => apart c inside c there rfl⟩
    split at member
    · rename_i turned
      rw [if_pos turned]
      rcases List.mem_append.mp member with left | right
      · refine .inr ⟨List.mem_append_left _ left, fun nodup c inside there => ?_⟩
        exact (parts nodup).2.2 c (l.chains_subset chain left c inside) (r.find_subset c there)
      · exact (ihr chain right).imp_right fun both =>
          ⟨List.mem_append_right _ both.1, fun nodup => both.2 (parts nodup).2.1⟩
    · rename_i turned
      rw [if_neg turned]
      rcases List.mem_append.mp member with left | right
      · exact (ihl chain left).imp_right fun both =>
          ⟨List.mem_append_left _ both.1, fun nodup => both.2 (parts nodup).1⟩
      · refine .inr ⟨List.mem_append_right _ right, fun nodup c inside there => ?_⟩
        exact (parts nodup).2.2 c (l.find_subset c there) (r.chains_subset chain right c inside)

def maskOf (nodes : Nat → RadixNode) (a : Nat) : Option Caddr := (nodes a).leaf?.bind RnLeaf.mask

def Ranks (nodes : Nat → RadixNode) (new : Caddr) (rnB : Int) (first : Bool) (a : Nat) : Prop :=
  ∀ m, maskOf nodes a = some m → sameMask m new = false ∧ better new rnB m (nodes a).b = first

theorem linked_head {next : Nat → Nat} {first : Nat} {chain : List Nat}
    (linked : Linked next first chain) : first = chain.headD 0 := by
  cases chain with
  | nil => exact linked
  | cons a rest => exact linked.1

theorem chainPass_masked {tt a : Nat} {new old : Caddr} {rnB : Int} (nonzero : a ≠ 0)
    (masked : maskOf nodes a = some old) :
    chainPass nodes (some new) rnB (tt, a) = some (if old.addr = new.addr ∨
      sameMask old new = true then .leave .same
      else if better new rnB old (nodes a).b = true then .leave (.between tt a)
        else .again (a, dup nodes a)) := by
  cases isLeaf : (nodes a).leaf? with
  | none =>
    rw [maskOf, isLeaf] at masked
    cases masked
  | some leaf =>
    rw [maskOf, isLeaf] at masked
    change leaf.mask = some old at masked
    simp only [chainPass, if_neg nonzero, isLeaf, masked, Option.map_some, Option.some.injEq, dup,
      Option.getD_some]
    by_cases pointer : old.addr = new.addr
    · simp only [pointer, if_true, true_or]
    · simp only [pointer, if_false, false_or]
      split
      · rfl
      · split <;> rfl

theorem chainPass_walks {fuel tt : Nat} {post : List Nat} {new : Caddr} {rnB : Int} {spot : Spot}
    (linked : Linked (dup nodes) (post.headD 0) post) (masked : ∀ a ∈ post, (maskOf nodes a).isSome)
    (walked : loop (chainPass nodes (some new) rnB) fuel (tt, post.headD 0) = some spot) :
    spot = .same ∨ ∃ front rest, post = front ++ rest ∧ spot = .between (front.getLastD tt) (rest.headD 0) ∧
      (∀ a ∈ front, Ranks nodes new rnB false a) ∧ ∀ a ∈ rest.head?, Ranks nodes new rnB true a := by
  induction post generalizing fuel tt with
  | nil =>
    cases fuel with
    | zero => cases walked
    | succ fuel =>
      cases walked
      exact .inr ⟨[], [], rfl, rfl, nofun, nofun⟩
  | cons a post ih =>
    cases fuel with
    | zero => cases walked
    | succ fuel =>
      obtain ⟨-, nonzero, behind⟩ := linked
      obtain ⟨old, held⟩ := Option.isSome_iff_exists.mp (masked a List.mem_cons_self)
      have ranks : ∀ {first}, sameMask old new = false → better new rnB old (nodes a).b = first →
          Ranks nodes new rnB first a := by
        intro first other rank m isM
        rw [held] at isM
        cases isM
        exact ⟨other, rank⟩
      have pass := @chainPass_masked nodes tt a new old rnB nonzero held
      change loop (chainPass nodes (some new) rnB) (fuel + 1) (tt, a) = some spot at walked
      by_cases same : old.addr = new.addr ∨ sameMask old new = true
      · rw [if_pos same] at pass
        simp only [loop, pass, Option.some.injEq] at walked
        exact .inl walked.symm
      · rw [if_neg same] at pass
        have other : sameMask old new = false := by simpa using fun held => same (.inr held)
        by_cases first : better new rnB old (nodes a).b = true
        · rw [if_pos first] at pass
          simp only [loop, pass, Option.some.injEq] at walked
          refine .inr ⟨[], a :: post, rfl, walked.symm, nofun, ?_⟩
          intro c isHead
          cases isHead
          exact ranks other first
        · rw [if_neg first] at pass
          simp only [loop, pass] at walked
          have onward := linked_head behind
          rw [onward] at behind walked
          rcases ih behind (fun c member => masked c (List.mem_cons_of_mem a member))
            walked with ended | ⟨front, rest, parts, at', before, after⟩
          · exact .inl ended
          · refine .inr ⟨a :: front, rest, by rw [parts]; rfl, ?_, ?_, after⟩
            · rw [at']
              cases front <;> rfl
            · intro c member
              rcases List.mem_cons.mp member with rfl | member
              · exact ranks other (by simpa using first)
              · exact before c member

theorem find_holds {s : Tree} {q : Nat} (holds : Holds nodes q s) :
    Holds nodes (nodes ((s.find nodes v).headD 0)).p (.leaf (s.find nodes v)) := by
  induction s generalizing q with
  | leaf chain => exact ⟨holds.1, rfl, holds.2.2⟩
  | node a l r ihl ihr =>
    rw [Tree.find]
    split
    · exact ihr holds.2.2.2.2.2
    · exact ihl holds.2.2.2.2.1

theorem find_nodup {s : Tree} (nodup : s.addrs.Nodup) : (s.find nodes v).Nodup := by
  induction s with
  | leaf chain => exact nodup
  | node a l r ihl ihr =>
    obtain ⟨left, right, -⟩ := List.nodup_append.mp (List.nodup_cons.mp nodup).2
    rw [Tree.find]
    split
    · exact ihr right
    · exact ihl left

theorem leaf_ne_node {a b : Nat} {u : RnNode} (isLeaf : (nodes a).leaf?.isSome = true)
    (isNode : (nodes b).node? = some u) : a ≠ b := by
  rintro rfl
  rw [node?_of_leaf isLeaf] at isNode
  cases isNode

theorem node_u {n : RadixNode} {u : RnNode} (isNode : n.node? = some u) : n.u = .node u := by
  rw [RadixNode.node?] at isNode
  cases held : n.u with
  | leaf u' =>
    rw [held] at isNode
    cases isNode
  | node u' =>
    rw [held] at isNode
    exact congrArg RnU.node (Option.some.inj isNode)

structure Enchained (nodes nodes' : Nat → RadixNode) (v : Caddr) (chain : List Nat) (t p : Nat) : Prop where
  new : (nodes' t).b = -1 ∧ maskOf nodes' t = none ∧ (nodes' t).flags.normal = false
  kept : ∀ c ∈ chain, (nodes' c).b = (nodes c).b ∧ maskOf nodes' c = maskOf nodes c
  up : (nodes' p).b = (nodes p).b
  others : ∀ c, c ∉ chain → c ≠ t → c ≠ p → nodes' c = nodes c

section

variable {s : Tree} {q t head head' : Nat} {front rest : List Nat} (holds : Holds nodes q s)
  (nodup : s.addrs.Nodup)
  (inner : ∃ a l r, s = .node a l r) (parts : s.find nodes v = front ++ rest) (fresh : t ∉ s.addrs)
    (nonzero : t ≠ 0)
  (blank : nodes t = RadixNode.blank)

include holds nodup inner parts fresh nonzero blank

theorem enchain_front (none : front = [])
    (enchained : enchain nodes v ((s.find nodes v).headD 0)
      (front.getLastD ((s.find nodes v).headD 0)) (rest.headD 0) t = some (head', nodes')) :
    Holds nodes' q (s.rechain nodes v (front ++ t :: rest)) ∧
      (s.rechain nodes v (front ++ t :: rest)).find nodes' v = front ++ t :: rest ∧
      head' = (front ++ t :: rest).headD 0 ∧
      Enchained nodes nodes' v (s.find nodes v) t (nodes ((s.find nodes v).headD 0)).p := by
  subst none
  rw [List.nil_append] at parts
  obtain ⟨nonempty, -, linked, leaves⟩ := find_holds (v := v) holds
  obtain ⟨member, u, isNode, links⟩ := parent_links (v := v) holds nodup inner
  generalize way : (nodes ((s.find nodes v).headD 0)).p = p at *
  have headLeaf := (leaves _ (headD_mem nonempty)).2
  obtain ⟨before, isBefore⟩ := Option.isSome_iff_exists.mp headLeaf
  have pt : p ≠ t := fun same => fresh (same ▸ member)
  have newLeaf : (nodes t).leaf? = some ⟨⟨0, fun _ => 0⟩, none, 0⟩ := by
    rw [blank]
    rfl
  simp only [enchain, List.getLastD_nil, newLeaf, isBefore, ← parts, if_true, way, isNode,
    Option.some.injEq, Prod.mk.injEq] at enchained
  obtain ⟨rfl, result⟩ := enchained
  have tp : t ≠ p := pt.symm
  have atT : nodes' t = { nodes t with
      p, b := -1, flags := ⟨false, true, false⟩, u := .leaf ⟨v, none, (s.find nodes v).headD 0⟩ } := by
    rw [← result, Function.update_self, Function.update_of_ne tp]
  have atP : nodes' p = { nodes p with
      u := .node (if turns nodes v p then { u with r := t } else { u with l := t }) } := by
    rw [← result, Function.update_of_ne pt, Function.update_self]
    by_cases turned : turns nodes v p = true
    · rw [if_pos turned] at links ⊢
      rw [if_neg links.2]
    · rw [if_neg turned] at links ⊢
      rw [if_pos links]
  have others : ∀ c, c ≠ t → c ≠ p → nodes' c = nodes c := by
    intro c ct cp
    rw [← result, Function.update_of_ne ct, Function.update_of_ne cp]
  have inside : ∀ c ∈ s.find nodes v, nodes' c = nodes c := fun c here =>
    others c (fun same => fresh (same ▸ Tree.find_subset s c here)) (leaf_ne_node (leaves c here).2 isNode)
  have kept : ∀ c ∈ s.find nodes v, dup nodes' c = dup nodes c :=
    fun c here => by rw [dup, dup, inside c here]
  have chain : Holds nodes' p (.leaf (t :: s.find nodes v)) := by
    have next : dup nodes' t = (s.find nodes v).headD 0 := by
      rw [dup, atT]
      rfl
    refine ⟨List.cons_ne_nil _ _, by rw [List.headD_cons, atT], ⟨rfl, nonzero, ?_⟩, fun c here => ?_⟩
    · rw [next]
      exact linked.congr kept
    · rcases List.mem_cons.mp here with rfl | here
      · rw [atT]
        exact ⟨show (-1 : Int) < 0 by decide, rfl⟩
      · rw [inside c here]
        exact leaves c here
  rw [List.nil_append, ← parts]
  have replaced := @rechain_holds nodes nodes' v s q (t :: s.find nodes v) holds nodup inner
    ⟨u, way ▸ isNode, way ▸ atP⟩
    (fun c member away other => others c (fun same => fresh (same ▸ member)) (way ▸ other)) (way ▸ chain)
  refine ⟨replaced.1, replaced.2, rfl, ⟨?_, ?_, ?_⟩, fun c here => ?_, by rw [atP], fun c _ => others c⟩
  · rw [atT]
  · rw [maskOf, atT]
    rfl
  · rw [atT]
  · rw [inside c here]
    exact ⟨rfl, by rw [maskOf, maskOf, inside c here]⟩

theorem enchain_behind {earlier : List Nat} {last : Nat} (some_front : front = earlier ++ [last])
    (enchained : enchain nodes v ((s.find nodes v).headD 0)
      (front.getLastD ((s.find nodes v).headD 0)) (rest.headD 0) t = some (head', nodes')) :
    Holds nodes' q (s.rechain nodes v (front ++ t :: rest)) ∧
      (s.rechain nodes v (front ++ t :: rest)).find nodes' v = front ++ t :: rest ∧
      head' = (front ++ t :: rest).headD 0 ∧
      Enchained nodes nodes' v (s.find nodes v) t (nodes ((s.find nodes v).headD 0)).p := by
  subst some_front
  obtain ⟨nonempty, -, linked, leaves⟩ := find_holds (v := v) holds
  obtain ⟨member, u, isNode, links⟩ := parent_links (v := v) holds nodup inner
  have single : (s.find nodes v).Nodup := find_nodup nodup
  generalize way : (nodes ((s.find nodes v).headD 0)).p = p at *
  have whole : s.find nodes v = earlier ++ last :: rest := by rw [parts, List.append_assoc]; rfl
  have lastIn : last ∈ s.find nodes v := by simp [whole]
  obtain ⟨before, isBefore⟩ := Option.isSome_iff_exists.mp (leaves last lastIn).2
  have newLeaf : (nodes t).leaf? = some ⟨⟨0, fun _ => 0⟩, none, 0⟩ := by
    rw [blank]
    rfl
  have headSame : (s.find nodes v).headD 0 = (earlier ++ [last]).headD 0 := by
    rw [whole]
    cases earlier <;> rfl
  have headIn : (s.find nodes v).headD 0 ∈ earlier ++ [last] := by
    rw [headSame]
    exact headD_mem (by simp)
  have later : ¬ rest.headD 0 = (s.find nodes v).headD 0 := by
    intro same
    cases rest with
    | nil => exact linked.nonzero (headD_mem nonempty) same.symm
    | cons c rest =>
      rw [parts] at single
      exact (List.nodup_append.mp single).2.2 _ headIn c List.mem_cons_self same.symm
  have lastD : (earlier ++ [last]).getLastD ((s.find nodes v).headD 0) = last := by simp
  have tl : t ≠ last := fun same => fresh (same ▸ Tree.find_subset s last lastIn)
  simp only [enchain, lastD, newLeaf, isBefore, if_neg later, Option.some.injEq, Prod.mk.injEq,
    Function.update_of_ne tl.symm] at enchained
  obtain ⟨rfl, result⟩ := enchained
  have atT : nodes' t = { nodes t with
      b := -1, flags := ⟨false, true, false⟩, u := .leaf ⟨v, none, before.dupedkey⟩ } := by
    rw [← result, Function.update_of_ne tl, Function.update_self]
  have atLast : nodes' last = { nodes last with u := .leaf { before with dupedkey := t } } := by
    rw [← result, Function.update_self]
  have others : ∀ c, c ≠ t → c ≠ last → nodes' c = nodes c := by
    intro c ct cl
    rw [← result, Function.update_of_ne cl, Function.update_of_ne ct]
  have pl : p ≠ last := (leaf_ne_node (leaves last lastIn).2 isNode).symm
  have pt : p ≠ t := fun same => fresh (same ▸ member)
  have fields : ∀ c ∈ s.find nodes v, (nodes' c).b = (nodes c).b ∧ (nodes' c).p = (nodes c).p ∧
    maskOf nodes' c = maskOf nodes c ∧
      (nodes' c).leaf?.isSome := by
    intro c here
    by_cases at' : c = last
    · subst at'
      refine ⟨by rw [atLast], by rw [atLast], ?_, by rw [atLast]; rfl⟩
      rw [maskOf, maskOf, atLast, isBefore]
      rfl
    · rw [maskOf, maskOf, others c (fun same => fresh (same ▸ Tree.find_subset s c here)) at']
      exact ⟨rfl, rfl, rfl, (leaves c here).2⟩
  have chain : Holds nodes' p (.leaf (earlier ++ [last] ++ t :: rest)) := by
    have newHead : (earlier ++ [last] ++ t :: rest).headD 0 = (s.find nodes v).headD 0 := by
      rw [headSame]
      cases earlier <;> rfl
    have put : earlier ++ [last] ++ t :: rest = earlier ++ last :: t :: rest := by rw [List.append_assoc]; rfl
    refine ⟨by simp, ?_, ?_, fun c here => ?_⟩
    · rw [newHead, (fields _ (headD_mem nonempty)).2.1, way]
    · rw [newHead, put]
      rw [whole] at linked ⊢
      apply linked.insert nonzero
      · rw [dup, atLast]
        rfl
      · rw [dup, dup, atT, isBefore]
        rfl
      · intro c here
        have inChain : c ∈ s.find nodes v := by
          rw [whole]
          rcases List.mem_append.mp here with left | right
          · exact List.mem_append_left _ left
          · exact List.mem_append_right _ (List.mem_cons_of_mem _ right)
        have away : c ≠ last := by
          rintro rfl
          rw [whole] at single
          obtain ⟨-, tail, apart⟩ := List.nodup_append.mp single
          rcases List.mem_append.mp here with left | right
          · exact apart c left c List.mem_cons_self rfl
          · exact (List.nodup_cons.mp tail).1 right
        rw [dup, dup, others c (fun same => fresh (same ▸ Tree.find_subset s c inChain)) away]
    · by_cases new : c = t
      · rw [new, atT]
        exact ⟨show (-1 : Int) < 0 by decide, rfl⟩
      · have inChain : c ∈ s.find nodes v := by
          rw [parts]
          rcases List.mem_append.mp here with left | right
          · exact List.mem_append_left _ left
          · exact List.mem_append_right _ ((List.mem_cons.mp right).resolve_left new)
        obtain ⟨bit, -, -, isLeaf⟩ := fields c inChain
        exact ⟨bit ▸ (leaves c inChain).1, isLeaf⟩
  have newHead : (earlier ++ [last] ++ t :: rest).headD 0 = (s.find nodes v).headD 0 := by
    rw [headSame]
    cases earlier <;> rfl
  have replaced := @rechain_holds nodes nodes' v s q (earlier ++ [last] ++ t :: rest)
      holds nodup inner ⟨u, way ▸ isNode, by
      rw [way, others p pt pl, newHead]
      have arm := node_u isNode
      by_cases turned : turns nodes v p = true
      · rw [if_pos turned] at links ⊢
        rw [← links.1, ← arm]
      · rw [if_neg turned] at links ⊢
        rw [← links, ← arm]⟩
    (fun c member away other => others c (fun same => fresh (same ▸ member)) fun same =>
      away (same ▸ lastIn)) (way ▸ chain)
  refine ⟨replaced.1, replaced.2, newHead.symm, ⟨by rw [atT], ?_, by rw [atT]⟩, fun c here =>
    ⟨(fields c here).1, (fields c here).2.2.1⟩, by rw [others p pt pl],
    fun c away ct _ => others c ct fun same => away (same ▸ lastIn)⟩
  rw [maskOf, atT]
  rfl

end

def SameLinks (nodes nodes' : Nat → RadixNode) : Prop :=
  ∀ a, (nodes' a).p = (nodes a).p ∧ (nodes' a).b = (nodes a).b ∧ (nodes' a).bmask = (nodes a).bmask ∧
    (nodes' a).flags = (nodes a).flags ∧ (nodes' a).u = (nodes a).u

theorem SameLinks.refl (nodes : Nat → RadixNode) : SameLinks nodes nodes := fun _ => ⟨rfl, rfl, rfl, rfl, rfl⟩

theorem SameLinks.trans {nodes'' : Nat → RadixNode} (first : SameLinks nodes nodes')
    (second : SameLinks nodes' nodes'') :
    SameLinks nodes nodes'' := fun a =>
  ⟨(second a).1.trans (first a).1, (second a).2.1.trans (first a).2.1, (second a).2.2.1.trans (first a).2.2.1,
    (second a).2.2.2.1.trans (first a).2.2.2.1, (second a).2.2.2.2.trans (first a).2.2.2.2⟩

theorem SameLinks.masklist (nodes : Nat → RadixNode) (a rm : Nat) :
    SameLinks nodes (Function.update nodes a { nodes a with masklist := rm }) := by
  intro c
  by_cases here : c = a
  · rw [here, Function.update_self]
    exact ⟨rfl, rfl, rfl, rfl, rfl⟩
  · rw [Function.update_of_ne here]
    exact ⟨rfl, rfl, rfl, rfl, rfl⟩

structure Listing (T T' : Tables) : Prop where
  links : SameLinks T.nodes T'.nodes
  maskTop : T'.maskTop = T.maskTop

theorem Listing.refl (T : Tables) : Listing T T := ⟨.refl _, rfl⟩

theorem Listing.trans {T T' T'' : Tables} (first : Listing T T') (second : Listing T' T'') : Listing T T'' :=
  ⟨first.links.trans second.links, second.maskTop.trans first.maskTop⟩

theorem Rmp.set_listing (T : Tables) (rm : Nat) (rmp : Rmp) : Listing T (Rmp.set T rm rmp) := by
  cases rmp with
  | masklist a => exact ⟨.masklist T.nodes a rm, rfl⟩
  | next a => exact ⟨.refl _, rfl⟩

theorem rnNewRadixMask_listing {T T' : Tables} {t next rm : Nat}
    (made : rnNewRadixMask T t next = some (rm, T')) : Listing T T' := by
  unfold rnNewRadixMask at made
  split at made
  · cases made
    exact .refl T
  · dsimp only at made
    split at made
    · cases made
    · split at made
      · cases made
        exact ⟨.refl _, rfl⟩
      · split at made
        · cases made
        · cases made
          exact ⟨.masklist T.nodes t _, rfl⟩

theorem siblingPass_listing {rnB : Nat} {T T₁ : Tables} {x : Nat} {rmp : Rmp}
    {pass : Pass (Tables × Nat × Rmp) Tables}
    (listed : Listing T T₁) (passed : siblingPass rnB (T₁, x, rmp) = some pass) :
    (∃ next, pass = .again next ∧ Listing T next.1) ∨ ∃ result, pass = .leave result ∧ Listing T result := by
  simp only [siblingPass] at passed
  split at passed
  · exact .inr ⟨T₁, (Option.some.inj passed).symm, listed⟩
  split at passed
  · cases passed
  split at passed
  · split at passed
    · cases passed
    · rename_i rm T₂ made
      exact .inl ⟨_, (Option.some.inj passed).symm,
        (listed.trans (rnNewRadixMask_listing made)).trans (Rmp.set_listing _ _ _)⟩
  · exact .inl ⟨_, (Option.some.inj passed).symm, listed⟩

theorem promote_listing {fuel t p : Nat} {T T' : Tables} (promoted : promote fuel T t p = some T') :
    Listing T T' := by
  unfold promote at promoted
  split at promoted
  · cases promoted
  rename_i u isNode
  dsimp only at promoted
  generalize (if u.l = t then u.r else u.l) = x at promoted
  split at promoted
  · -- leaves beside the new one
    refine loop_invariant (fun s : Tables × Nat × Rmp => Listing T s.1) (fun T' => Listing T T')
      ?_ ?_ promoted (.refl T)
    · rintro ⟨T₁, x, rmp⟩ next again listed
      rcases siblingPass_listing listed again with ⟨next', same, kept⟩ | ⟨result, same, -⟩
      · cases same
        exact kept
      · cases same
    · rintro ⟨T₁, x, rmp⟩ result leave listed
      rcases siblingPass_listing listed leave with ⟨next, same, -⟩ | ⟨result', same, kept⟩
      · cases same
      · cases same
        exact kept
  split at promoted
  · split at promoted
    · cases promoted
    · cases promoted
      exact (Rmp.set_listing T _ _).trans (Rmp.set_listing _ _ _)
  · cases promoted
    exact .refl T

/-- Every entry of a list comes before a new mask: its index is kept in 16 bits, that of the mask is
    an `ulong`. -/
theorem entryPass_again {T : Tables} {t rnB : Nat} {netmask : Caddr} (large : 2^16 ≤ rnB) (rmp : Rmp) :
    entryPass T t netmask rnB rmp = some (if rmp.get T = 0 then .leave (.put rmp)
      else .again (.next (rmp.get T))) := by
  have small := (T.masks (rmp.get T)).b.toNat_lt
  unfold entryPass
  dsimp only
  split
  · rfl
  · rw [if_pos (by omega)]

theorem listMask_listing {fuel t p top b : Nat} {T : Tables} {netmask : Caddr} {added : Added}
    (index : (T.nodes t).b < 0)
    (low : -(2^31 : Int) ≤ (T.nodes t).b)
    (listed : listMask fuel T t p top netmask b = some added) : ∃ T', added = .done t T' ∧ Listing T T' := by
  have large : 2^16 ≤ ulong (T.nodes t).b := by
    simp only [ulong]
    omega
  unfold listMask at listed
  split at listed
  · cases listed
  rename_i x climbed
  have ends : ∀ {entry}, loop (entryPass T t netmask (ulong (T.nodes t).b)) fuel (.masklist x) =
      some entry → ∃ rmp, entry = .put rmp := by
    intro entry walked
    refine loop_invariant (fun _ => True) (fun entry => ∃ rmp, entry = .put rmp)
      (fun _ _ _ _ => trivial) ?_ walked trivial
    intro rmp result leave _
    rw [entryPass_again large] at leave
    split at leave
    · cases leave
      exact ⟨rmp, rfl⟩
    · cases leave
  split at listed
  · cases listed
  · rename_i walked
    obtain ⟨rmp, same⟩ := ends walked
    cases same
  · rename_i walked
    obtain ⟨rmp, same⟩ := ends walked
    cases same
  · rename_i walked
    obtain ⟨rmp, same⟩ := ends walked
    cases same
  · split at listed
    · cases listed
    · rename_i made
      cases listed
      exact ⟨_, rfl, (rnNewRadixMask_listing made).trans (Rmp.set_listing _ _ _)⟩

end Embryo.Radix
