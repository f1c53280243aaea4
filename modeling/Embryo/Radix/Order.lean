import Embryo.Radix.Chain

namespace Embryo.Radix

open Embryo.Machine

variable {nodes nodes' : Nat → RadixNode} {v : Caddr} {T T' : Tables}

theorem sameMask_comm (m n : Caddr) : sameMask m n = sameMask n m := by
  have turn : ∀ m n : Caddr, sameMask m n = true → sameMask n m = true := by
    intro m n same
    simp only [sameMask, decide_eq_true_eq, List.all_eq_true] at same ⊢
    refine ⟨same.1.symm, fun i inside => ?_⟩
    rw [same.1] at inside
    exact (same.2 i inside).symm
  cases held : sameMask n m with
  | true => exact turn n m held
  | false => exact Bool.eq_false_iff.mpr fun same => by rw [turn m n same] at held; cases held

def maskLength (nodes : Nat → RadixNode) (a : Nat) : Int := -1 - (nodes a).b

/-- The leaf `b` may come behind `a`: it is of a network, and the mask is not longer than that of
    `a`, nor the same. -/
def Precedes (nodes : Nat → RadixNode) (a b : Nat) : Prop :=
  ∃ n, maskOf nodes b = some n ∧
    ∀ m, maskOf nodes a = some m → maskLength nodes b ≤ maskLength nodes a ∧ sameMask m n = false

def Ordered (nodes : Nat → RadixNode) (chain : List Nat) : Prop := chain.Pairwise (Precedes nodes)

def Uniform (nodes : Nat → RadixNode) (chain : List Nat) : Prop :=
  (∀ a ∈ chain, (maskOf nodes a).isSome = true) ∨ ∃ a, chain = [a]

def Low (nodes : Nat → RadixNode) (a : Nat) : Prop := (nodes a).b < 0 ∧ -(2^31 : Int) ≤ (nodes a).b

theorem Ordered.congr {chain : List Nat} (ordered : Ordered nodes chain)
    (kept : ∀ c ∈ chain, (nodes' c).b = (nodes c).b ∧ maskOf nodes' c = maskOf nodes c) :
    Ordered nodes' chain := by
  apply List.Pairwise.imp_of_mem _ ordered
  intro a b inA inB precedes
  rw [Precedes, maskLength, maskLength, (kept a inA).1, (kept b inB).1, (kept a inA).2, (kept b inB).2]
  exact precedes

theorem Uniform.congr {chain : List Nat} (uniform : Uniform nodes chain)
    (kept : ∀ c ∈ chain, maskOf nodes' c = maskOf nodes c) :
    Uniform nodes' chain := by
  apply uniform.imp_left
  intro masked a member
  rw [kept a member]
  exact masked a member

theorem ulong_le {x y : Int} (lowX : x < 0 ∧ -(2^31 : Int) ≤ x) (lowY : y < 0 ∧ -(2^31 : Int) ≤ y)
    (notBefore : ¬ ulong x < ulong y) : y ≤ x := by
  simp only [ulong] at notBefore
  omega

theorem ordered_insert {front rest : List Nat} {t : Nat} {new : Caddr}
    (ordered : Ordered nodes (front ++ rest))
    (masked : ∀ c ∈ front ++ rest, (maskOf nodes c).isSome = true)
    (low : ∀ c ∈ front ++ rest, Low nodes c) (lowT : Low nodes' t)
    (kept : ∀ c ∈ front ++ rest, (nodes' c).b = (nodes c).b ∧ maskOf nodes' c = maskOf nodes c)
    (here : maskOf nodes' t = some new)
    (before : ∀ a ∈ front, Ranks nodes new (nodes' t).b false a)
    (after : ∀ a ∈ rest, (nodes' t).b ≤ (nodes a).b ∧ ∀ m, maskOf nodes a = some m → sameMask m new = false) :
    Ordered nodes' (front ++ t :: rest) := by
  have old := List.pairwise_append.mp (ordered.congr kept)
  apply List.pairwise_append.mpr
  refine ⟨old.1, List.pairwise_cons.mpr ⟨fun b inRest => ?_, old.2.1⟩, fun a inFront b member => ?_⟩
  · -- those behind
    have inChain := List.mem_append_right front inRest
    obtain ⟨n, isN⟩ := Option.isSome_iff_exists.mp (masked b inChain)
    obtain ⟨shorter, other⟩ := after b inRest
    refine ⟨n, (kept b inChain).2.trans isN, fun m isM => ?_⟩
    rw [here] at isM
    cases isM
    rw [maskLength, maskLength, (kept b inChain).1, sameMask_comm]
    exact ⟨by omega, other n isN⟩
  · rcases List.mem_cons.mp member with rfl | inRest
    · -- those before
      have inChain := List.mem_append_left rest inFront
      refine ⟨new, here, fun m isM => ?_⟩
      rw [(kept a inChain).2] at isM
      obtain ⟨other, ranks⟩ := before a inFront m isM
      rw [better, decide_eq_false_iff_not, not_or] at ranks
      have longer := ulong_le lowT (low a inChain) ranks.1
      rw [maskLength, maskLength, (kept a inChain).1]
      exact ⟨by omega, other⟩
    · exact old.2.2 a inFront b inRest

structure Routed (nodes nodes' : Nat → RadixNode) (t : Nat)
    (netmask : Option (Caddr × RadixNode)) : Prop where
  like : ∀ c, Like nodes nodes' c
  turn : ∀ c, (nodes' c).bmask = (nodes c).bmask
  others : ∀ c, c ≠ t → (nodes' c).b = (nodes c).b ∧ maskOf nodes' c = maskOf nodes c
  here : (nodes' t).b = (netmask.map fun n => n.2.b).getD (nodes t).b ∧
    maskOf nodes' t = (netmask.map Prod.fst).or (maskOf nodes t)

theorem SameLinks.leaf? (same : SameLinks nodes nodes') (c : Nat) : (nodes' c).leaf? = (nodes c).leaf? := by
  rw [RadixNode.leaf?, (same c).2.2.2.2, ← RadixNode.leaf?]

theorem Routed.relist {nodes'' : Nat → RadixNode} {t : Nat} {netmask : Option (Caddr × RadixNode)}
    (set : Routed nodes nodes' t netmask)
    (same : SameLinks nodes' nodes'') : Routed nodes nodes'' t netmask := by
  have alike : ∀ c, Like nodes' nodes'' c := fun c => .of_same (same c).2.1 (same c).1 (same c).2.2.2.2
  have fields : ∀ c, (nodes'' c).b = (nodes' c).b ∧ maskOf nodes'' c = maskOf nodes' c := by
    intro c
    rw [maskOf, maskOf, same.leaf? c]
    exact ⟨(same c).2.1, rfl⟩
  refine ⟨fun c => ?_, fun c => (same c).2.2.1.trans (set.turn c), fun c other => ?_, ?_⟩
  · obtain ⟨kind, p, dup, isLeaf, node?⟩ := set.like c
    obtain ⟨kind', p', dup', isLeaf', node?'⟩ := alike c
    exact ⟨kind'.trans kind, p'.trans p, dup'.trans dup, isLeaf'.trans isLeaf, node?'.trans node?⟩
  · rw [(fields c).1, (fields c).2]
    exact set.others c other
  · rw [(fields t).1, (fields t).2]
    exact set.here

theorem setMask_routed {t : Nat} {netmask : Caddr} {rnm : RadixNode} (leafT : (nodes t).b < 0)
    (index : rnm.b < 0)
    (set : setMask nodes t netmask rnm = some nodes') : Routed nodes nodes' t (some (netmask, rnm)) := by
  rw [setMask] at set
  obtain ⟨leaf, isLeaf, result⟩ := Option.map_eq_some_iff.mp set
  have here : nodes' t = { nodes t with
      b := rnm.b
      u := .leaf { leaf with mask := some netmask }
      flags := { (nodes t).flags with normal := (nodes t).flags.normal || rnm.flags.normal } } := by
    rw [← result, Function.update_self]
  have others : ∀ c, c ≠ t → nodes' c = nodes c := fun c other => by
    rw [← result, Function.update_of_ne other]
  refine ⟨fun c => ?_, fun c => ?_, fun c other => ?_, ?_⟩
  · by_cases same : c = t
    · rw [same]
      refine ⟨?_, by rw [here], ?_, ?_, ?_⟩
      · rw [here]
        exact iff_of_true index leafT
      · rw [dup, dup, isLeaf, here]
        rfl
      · rw [isLeaf, here]
        rfl
      · have none : (nodes t).node? = none := node?_of_leaf (by rw [isLeaf]; rfl)
        rw [none, here]
        rfl
    · exact .of_same (by rw [others c same]) (by rw [others c same]) (by rw [others c same])
  · by_cases same : c = t
    · rw [same, here]
    · rw [others c same]
  · rw [maskOf, maskOf, others c other]
    exact ⟨rfl, rfl⟩
  · rw [maskOf, here]
    exact ⟨rfl, rfl⟩

theorem routed_spec {fuel t p top : Nat} {isduped : Bool} {netmask : Option (Caddr × RadixNode)}
    {added : Added}
    (leafT : (T.nodes t).b < 0) (index : ∀ n ∈ netmask, n.2.b < 0 ∧ -(2^31 : Int) ≤ n.2.b)
    (route : routed fuel T t p top isduped netmask = some added) :
    ∃ T', added = .done t T' ∧ T'.maskTop = T.maskTop ∧ Routed T.nodes T'.nodes t netmask := by
  unfold routed at route
  split at route
  · cases route
  rename_i nodes set
  have first : Routed T.nodes nodes t netmask := by
    cases netmask with
    | none =>
      cases set
      exact ⟨fun c => .of_same rfl rfl rfl, fun c => rfl, fun c _ => ⟨rfl, rfl⟩, ⟨rfl, rfl⟩⟩
    | some n => exact setMask_routed leafT (index n rfl).1 set
  split at route
  · cases route
  rename_i T₁ promoted
  have second : Listing { T with nodes } T₁ := by
    split at promoted
    · cases promoted
      exact .refl _
    · exact promote_listing promoted
  have listed := first.relist second.links
  split at route
  · cases route
    exact ⟨T₁, rfl, second.maskTop, listed⟩
  rename_i netmask rnm
  dsimp only at route
  split at route
  · cases route
    exact ⟨T₁, rfl, second.maskTop, listed⟩
  · have low := index _ rfl
    have bit : (T₁.nodes t).b = rnm.b := listed.here.1
    obtain ⟨T₂, result, third⟩ := listMask_listing (bit ▸ low.1) (bit ▸ low.2) route
    exact ⟨T₂, result, third.maskTop.trans second.maskTop, listed.relist third.links⟩

theorem leaf_negative {s : Tree} {q a : Nat} (holds : Holds nodes q s) (member : a ∈ s.addrs)
    (isLeaf : (nodes a).leaf?.isSome = true) :
    (nodes a).b < 0 := by
  induction s generalizing q with
  | leaf chain => exact (holds.2.2.2 a member).1
  | node c l r ihl ihr =>
    obtain ⟨-, -, -, ⟨off, isNode⟩, left, right⟩ := holds
    rcases List.mem_cons.mp member with rfl | member
    · rw [node?_of_leaf isLeaf] at isNode
      cases isNode
    · rcases List.mem_append.mp member with inL | inR
      · exact ihl left inL
      · exact ihr right inR

structure Stands (nodes : Nat → RadixNode) (top : Nat) (s : Tree) : Prop where
  holds : Holds nodes top s
  root : s.root = top
  low : ∀ c ∈ s.addrs, -(2^31 : Int) ≤ (nodes c).b

theorem Stands.congr {s : Tree} {top : Nat} (stands : Stands nodes top s)
    (same : ∀ c ∈ s.addrs, nodes' c = nodes c) :
    Stands nodes' top s :=
  ⟨stands.holds.congr fun c member => by rw [same c member]; exact ⟨rfl, rfl, rfl⟩, stands.root,
    fun c member => by rw [same c member]; exact stands.low c member⟩

theorem Stands.leaf {s : Tree} {top a : Nat} (stands : Stands nodes top s) (member : a ∈ s.addrs)
    (isLeaf : (nodes a).leaf?.isSome = true) : Low nodes a :=
  ⟨leaf_negative stands.holds member isLeaf, stands.low a member⟩

theorem Stands.find {s : Tree} {top : Nat} (stands : Stands nodes top s) :
    (s.find nodes v).headD 0 ∈ s.addrs ∧ (nodes ((s.find nodes v).headD 0)).leaf?.isSome = true := by
  obtain ⟨nonempty, -, -, leaves⟩ := find_holds (v := v) stands.holds
  exact ⟨s.find_subset _ (headD_mem nonempty), (leaves _ (headD_mem nonempty)).2⟩

theorem Stands.insert {s : Tree} {top t tt fuel r : Nat} {isduped : Bool}
    (stands : Stands nodes top s) (nodup : s.addrs.Nodup) (blank : nodes t = RadixNode.blank)
    (nonzero : t ≠ 0 ∧ tt ≠ 0) (fresh : t ∉ s.addrs ∧ tt ∉ s.addrs) (apart : t ≠ tt)
    (inserted : rnInsert fuel nodes v top t tt = some (r, isduped, nodes')) :
    (isduped = true ∧ nodes' = nodes ∧ r = (s.find nodes v).headD 0) ∨
      (isduped = false ∧ r = t ∧ ∃ s', Inserted nodes nodes' v top s s' t tt ∧ Stands nodes' top s' ∧
        ∀ c, c ∈ s'.addrs → c = t ∨ c = tt ∨ c ∈ s.addrs) := by
  rw [← stands.root] at inserted
  rcases rnInsert_spec stands.holds nodup blank nonzero fresh apart inserted with dup
    | ⟨single, isT, s', spec⟩
  · exact .inl dup
  · have members : ∀ c, c ∈ s'.addrs → c = t ∨ c = tt ∨ c ∈ s.addrs := by
      intro c member
      rcases spec.addrs with same | more
      · exact .inr (.inr (same.mem_iff.mp member))
      · simpa only [List.mem_cons] using more.mem_iff.mp member
    refine .inr ⟨single, isT, s', spec, ⟨spec.holds, spec.root.trans stands.root, fun c member =>
      ?_⟩, members⟩
    rcases members c member with rfl | rfl | old
    · rw [spec.new.1]
      decide
    · have inner := spec.inner
      omega
    · rw [spec.bits c old]
      exact stands.low c old

theorem chains_leaves {s : Tree} {q : Nat} (holds : Holds nodes q s) :
    ∀ chain ∈ s.chains, ∀ c ∈ chain, (nodes c).leaf?.isSome = true := by
  induction s generalizing q with
  | leaf chain =>
    intro chain' member c inside
    rw [List.mem_singleton.mp member] at inside
    exact (holds.2.2.2 c inside).2
  | node a l r ihl ihr =>
    intro chain member
    rcases List.mem_append.mp member with left | right
    · exact ihl holds.2.2.2.2.1 chain left
    · exact ihr holds.2.2.2.2.2 chain right

/-- The tree `s` of the routes and the tree `m` of the masks, in nodes that are `used`. -/
structure Planted (nodes : Nat → RadixNode) (maskTop treetop : Nat) (used : List Nat)
    (s m : Tree) : Prop where
  routes : Stands nodes treetop s
  inner : ∃ a l r, s = .node a l r
  masks : Stands nodes maskTop m
  nodup : (s.addrs ++ m.addrs).Nodup
  used : ∀ c ∈ s.addrs ++ m.addrs, c ∈ used
  left : maskTop - sizeofRadixNode ∈ m.addrs ∧ (nodes (maskTop - sizeofRadixNode)).leaf?.isSome = true

structure Grove (nodes : Nat → RadixNode) (maskTop treetop : Nat) (used : List Nat) (s m : Tree) :
    Prop extends
    Planted nodes maskTop treetop used s m where
  chains : ∀ chain ∈ s.chains, Uniform nodes chain ∧ Ordered nodes chain

theorem Stands.alike {s : Tree} {top : Nat} (stands : Stands nodes top s) (like : ∀ c, Like nodes nodes' c)
    (low : ∀ c ∈ s.addrs, -(2^31 : Int) ≤ (nodes' c).b) : Stands nodes' top s :=
  ⟨stands.holds.alike fun c _ => like c, stands.root, low⟩

theorem Planted.routed {maskTop treetop t : Nat} {used : List Nat} {s m : Tree}
    {netmask : Option (Caddr × RadixNode)}
    (planted : Planted nodes maskTop treetop used s m) (routed : Routed nodes nodes' t netmask)
    (index : ∀ n ∈ netmask, n.2.b < 0 ∧ -(2^31 : Int) ≤ n.2.b) : Planted nodes' maskTop treetop used s m := by
  have low : ∀ c, -(2^31 : Int) ≤ (nodes c).b → -(2^31 : Int) ≤ (nodes' c).b := by
    intro c before
    by_cases same : c = t
    · subst same
      rw [routed.here.1]
      cases netmask with
      | none => exact before
      | some n => exact (index n rfl).2
    · rw [(routed.others c same).1]
      exact before
  refine ⟨planted.routes.alike routed.like fun c member => low c (planted.routes.low c member), planted.inner,
    planted.masks.alike routed.like fun c member => low c (planted.masks.low c member),
      planted.nodup, planted.used, planted.left.1, ?_⟩
  rw [(routed.like _).isLeaf]
  exact planted.left.2

def taken (pair : Nat) (used : List Nat) : List Nat :=
  if pair = 0 then used else pair :: (pair + sizeofRadixNode) :: used

theorem taken_mono {pair : Nat} {used : List Nat} {c : Nat} (old : c ∈ used) : c ∈ taken pair used := by
  unfold taken
  split
  · exact old
  · exact List.mem_cons_of_mem _ (List.mem_cons_of_mem _ old)

theorem Grove.taken {maskTop treetop pair : Nat} {used : List Nat} {s m : Tree}
    (grove : Grove nodes maskTop treetop used s m) :
    Grove nodes maskTop treetop (taken pair used) s m :=
  ⟨⟨grove.routes, grove.inner, grove.masks, grove.nodup, fun c member =>
    taken_mono (grove.used c member), grove.left⟩, grove.chains⟩

theorem Grove.mask {maskTop treetop pair : Nat} {used : List Nat} {s m m' : Tree}
    (grove : Grove nodes maskTop treetop used s m) (nonzero : pair ≠ 0)
    (fresh : pair ∉ used ∧ pair + sizeofRadixNode ∉ used) (masks : Stands nodes' maskTop m')
    (more : m'.addrs.Perm m.addrs ∨ m'.addrs.Perm (pair :: (pair + sizeofRadixNode) :: m.addrs))
    (left : (nodes' (maskTop - sizeofRadixNode)).leaf?.isSome = true)
    (others : ∀ c, c ∉ m.addrs → c ≠ pair → c ≠ pair + sizeofRadixNode → nodes' c = nodes c) :
    Grove nodes' maskTop treetop (Embryo.Radix.taken pair used) s m' := by
  have outside : ∀ c, c ∈ s.addrs ++ m.addrs → c ≠ pair ∧ c ≠ pair + sizeofRadixNode := fun c member =>
    ⟨fun same => fresh.1 (same ▸ grove.used c member), fun same => fresh.2 (same ▸ grove.used c member)⟩
  have same : ∀ c ∈ s.addrs, nodes' c = nodes c := by
    intro c member
    have away := outside c (List.mem_append_left _ member)
    exact others c (fun there => (List.nodup_append.mp grove.nodup).2.2 c member c there rfl) away.1 away.2
  have kept : ∀ chain ∈ s.chains, ∀ c ∈ chain, nodes' c = nodes c := fun chain member c inside =>
    same c (s.chains_subset chain member c inside)
  refine ⟨⟨grove.routes.congr same, grove.inner, masks, ?_, fun c member => ?_, ⟨?_, left⟩⟩,
    fun chain member => ?_⟩
  · rcases more with perm | perm
    · exact (perm.append_left s.addrs).nodup_iff.mpr grove.nodup
    · have whole : (s.addrs ++ m'.addrs).Perm (pair :: (pair + sizeofRadixNode) :: (s.addrs ++ m.addrs)) :=
        (perm.append_left s.addrs).trans (List.perm_middle.trans (List.perm_middle.cons pair))
      apply whole.nodup_iff.mpr
      refine List.nodup_cons.mpr ⟨fun member => ?_,
        List.nodup_cons.mpr ⟨fun member => (outside _ member).2 rfl, grove.nodup⟩⟩
      rcases List.mem_cons.mp member with equal | member
      · simp [sizeofRadixNode] at equal
      · exact (outside _ member).1 rfl
  · rcases List.mem_append.mp member with inS | inM
    · exact taken_mono (grove.used c (List.mem_append_left _ inS))
    · rcases more with perm | perm
      · exact taken_mono (grove.used c (List.mem_append_right _ (perm.mem_iff.mp inM)))
      · rw [Embryo.Radix.taken, if_neg nonzero]
        rcases List.mem_cons.mp (perm.mem_iff.mp inM) with rfl | inM
        · exact List.mem_cons_self
        · rcases List.mem_cons.mp inM with rfl | inM
          · exact List.mem_cons_of_mem _ List.mem_cons_self
          · exact List.mem_cons_of_mem _ (List.mem_cons_of_mem _ (grove.used c (List.mem_append_right _ inM)))
  · rcases more with perm | perm
    · exact perm.mem_iff.mpr grove.left.1
    · exact perm.mem_iff.mpr (List.mem_cons_of_mem _ (List.mem_cons_of_mem _ grove.left.1))
  · obtain ⟨uniform, ordered⟩ := grove.chains chain member
    have fields : ∀ c ∈ chain, (nodes' c).b = (nodes c).b ∧ maskOf nodes' c = maskOf nodes c := by
      intro c inside
      rw [maskOf, maskOf, kept chain member c inside]
      exact ⟨rfl, rfl⟩
    exact ⟨uniform.congr fun c inside => (fields c inside).2, ordered.congr fields⟩

theorem maskIndex_le {netmask : Caddr} {skip mlen : Nat} (more : skip < mlen) :
    (maskIndex netmask skip mlen).2 ≤ 8 * mlen + 8 := by
  have ones := (List.takeWhile_sublist (fun i => decide (netmask i = 0xff)) (l :=
    List.range' skip (mlen - skip))).length_le
  rw [List.length_range'] at ones
  unfold maskIndex
  dsimp only
  generalize ((List.range' skip (mlen - skip)).takeWhile fun i =>
    decide (netmask i = 0xff)).length = count at ones ⊢
  have bits :=
    (List.takeWhile_sublist (fun k =>
      decide ((0x80 >>> UInt8.ofNat k) &&& netmask (skip + count) ≠ 0)) (l := List.range 8)).length_le
  rw [List.length_range] at bits
  split
  · dsimp only
    omega
  · dsimp only
    omega

theorem cutMask_length {netmask : Caddr} {skip : Nat} : (cutMask T netmask skip).2.2 ≤ 255 := by
  have byte := (netmask 0).toNat_lt
  simp only [cutMask]
  omega

def zalloc (nodes : Nat → RadixNode) (pair : Nat) : Nat → RadixNode :=
  Function.update (Function.update nodes pair RadixNode.blank) (pair + sizeofRadixNode) RadixNode.blank

theorem zalloc_blank (nodes : Nat → RadixNode) (pair : Nat) : zalloc nodes pair pair = RadixNode.blank := by
  have apart : pair ≠ pair + sizeofRadixNode := by simp [sizeofRadixNode]
  rw [zalloc, Function.update_of_ne apart, Function.update_self]

theorem zalloc_others {pair c : Nat} (first : c ≠ pair) (second : c ≠ pair + sizeofRadixNode) :
    zalloc nodes pair c = nodes c := by
  rw [zalloc, Function.update_of_ne second, Function.update_of_ne first]

theorem Grove.intern {fuel maskTop treetop pair r : Nat} {isduped : Bool} {used : List Nat}
    {s m : Tree} {cp : Caddr} (normal : Bool)
    (b : Nat) (grove : Grove nodes maskTop treetop used s m) (nonzero : pair ≠ 0)
    (fresh : pair ∉ used ∧ pair + sizeofRadixNode ∉ used)
    (small : b < 2^31)
    (inserted : rnInsert fuel (zalloc nodes pair) cp maskTop pair (pair + sizeofRadixNode) =
      some (r, isduped, nodes')) :
    let final := if isduped then nodes' else Function.update nodes' r { nodes' r with
      b := -1 - (b : Int), flags := { (nodes' r).flags with normal } }
    (∀ c, c ∉ m.addrs → c ≠ pair → c ≠ pair + sizeofRadixNode → final c = nodes c) ∧
      ∃ m', Grove final maskTop treetop (Embryo.Radix.taken pair used) s m' ∧ r ∈ m'.addrs ∧
          (final r).leaf?.isSome = true := by
  have outside : ∀ c, c ∈ m.addrs → c ≠ pair ∧ c ≠ pair + sizeofRadixNode := fun c member =>
    ⟨fun same => fresh.1 (same ▸ grove.used c (List.mem_append_right _ member)),
      fun same => fresh.2 (same ▸ grove.used c (List.mem_append_right _ member))⟩
  have same : ∀ c, c ∈ m.addrs → zalloc nodes pair c = nodes c :=
    fun c member => zalloc_others (outside c member).1 (outside c member).2
  have masks := grove.masks.congr same
  have nodup := (List.nodup_append.mp grove.nodup).2.1
  have free : pair ∉ m.addrs ∧ pair + sizeofRadixNode ∉ m.addrs :=
    ⟨fun member => (outside _ member).1 rfl, fun member => (outside _ member).2 rfl⟩
  rcases masks.insert nodup (zalloc_blank nodes pair) ⟨nonzero, by simp [sizeofRadixNode]⟩ free
      (by simp [sizeofRadixNode]) inserted with
    ⟨rfl, rfl, rfl⟩ | ⟨rfl, rfl, m', spec, stands, members⟩
  · -- the mask is there
    intro final
    have whole : final = zalloc nodes pair := if_pos rfl
    have others : ∀ c, c ∉ m.addrs → c ≠ pair → c ≠ pair + sizeofRadixNode →
      zalloc nodes pair c = nodes c := fun c _ => zalloc_others
    have leftLeaf := grove.left.2
    rw [← same _ grove.left.1] at leftLeaf
    rw [whole]
    exact ⟨others, m, grove.mask nonzero fresh masks (.inl (.refl _)) leftLeaf others, masks.find⟩
  · intro final
    have here : final r = { nodes' r with
      b := -1 - (b : Int), flags := { (nodes' r).flags with normal } } := Function.update_self _ _ _
    have away : ∀ c, c ≠ r → final c = nodes' c := fun c other => Function.update_of_ne other _ _
    have others : ∀ c, c ∉ m.addrs → c ≠ r → c ≠ r + sizeofRadixNode → final c = nodes c := by
      intro c outM first second
      rw [away c first, spec.others c outM first second, zalloc_others first second]
    have isLeaf : (final r).leaf?.isSome = true := by
      rw [here]
      have new := spec.new.2.1
      rw [RadixNode.leaf?] at new ⊢
      rw [new]
      rfl
    have like : ∀ c ∈ m'.addrs, Like nodes' final c := by
      intro c _
      by_cases new : c = r
      · have leafR := spec.new.1
        rw [new]
        refine ⟨?_, by rw [here], by rw [dup, dup, here]; rfl, by rw [here]; rfl, by rw [here]; rfl⟩
        rw [here, leafR]
        exact iff_of_true (show (-1 - (b : Int)) < 0 by omega) (by decide)
      · exact .of_same (by rw [away c new]) (by rw [away c new]) (by rw [away c new])
    have final_stands : Stands final maskTop m' := by
      refine ⟨stands.holds.alike like, stands.root, fun c member => ?_⟩
      by_cases new : c = r
      · rw [new, here]
        dsimp only
        omega
      · rw [away c new]
        exact stands.low c member
    have leftLeaf : (final (maskTop - sizeofRadixNode)).leaf?.isSome = true := by
      have before := grove.left.2
      rw [← same _ grove.left.1] at before
      rw [away _ (outside _ grove.left.1).1, RadixNode.leaf?, (spec.leaves _ grove.left.1 before).2,
        ← RadixNode.leaf?]
      exact before
    refine ⟨others, m', grove.mask nonzero fresh final_stands spec.addrs leftLeaf others, ?_, isLeaf⟩
    have inChain : r ∈ m'.find nodes' cp := by
      rw [spec.found]
      exact List.mem_singleton_self r
    exact m'.find_subset r inChain

theorem rnAddmask_spec {fuel treetop skip pair rnm : Nat} {netmask : Caddr} {search : Bool}
    {used : List Nat} {s m : Tree} (grove : Grove T.nodes T.maskTop treetop used s m)
    (fresh : pair ≠ 0 → pair ∉ used ∧ pair + sizeofRadixNode ∉ used)
    (added : rnAddmask fuel T netmask search skip pair = some (rnm, T')) :
    T'.maskTop = T.maskTop ∧
      (∀ c, c ∉ m.addrs → (pair ≠ 0 → c ≠ pair ∧ c ≠ pair + sizeofRadixNode) → T'.nodes c = T.nodes c) ∧
      ∃ m', Grove T'.nodes T.maskTop treetop (taken pair used) s m' ∧
        (rnm ≠ 0 → rnm ∈ m'.addrs ∧ (T'.nodes rnm).leaf?.isSome = true) := by
  have same : ∀ (T₁ : Tables) (r : Nat), T₁.nodes = T.nodes → T₁.maskTop = T.maskTop →
      (r ≠ 0 → r ∈ m.addrs ∧ (T.nodes r).leaf?.isSome = true) → some (r, T₁) = some (rnm, T') →
      T'.maskTop = T.maskTop ∧
        (∀ c, c ∉ m.addrs → (pair ≠ 0 → c ≠ pair ∧ c ≠ pair + sizeofRadixNode) → T'.nodes c = T.nodes c) ∧
      ∃ m', Grove T'.nodes T.maskTop treetop (taken pair used) s m' ∧
        (rnm ≠ 0 → rnm ∈ m'.addrs ∧ (T'.nodes rnm).leaf?.isSome = true) := by
    intro T₁ r nodes top leaf result
    cases result
    rw [nodes]
    exact ⟨top, fun c _ _ => rfl, m, grove.taken, leaf⟩
  unfold rnAddmask at added
  dsimp only at added
  generalize (if skip = 0 then 1 else skip) = skip at added
  by_cases brief : min (netmask 0).toNat T.maxkeylen ≤ skip
  · rw [if_pos brief] at added
    exact same T _ rfl rfl (fun _ => grove.left) added
  rw [if_neg brief] at added
  have length := @cutMask_length T netmask skip
  generalize cutMask T netmask skip = cut at added length
  obtain ⟨key, mlen0, mlen⟩ := cut
  dsimp only at added length
  by_cases more : mlen ≤ skip
  · rw [if_pos more] at added
    exact same { T with
      addrmaskkey := key, lastZeros := if mlen0 ≥ T.lastZeros then mlen else T.lastZeros } _ rfl rfl
      (fun _ => grove.left) added
  rw [if_neg more] at added
  generalize Function.update (fun i => if mlen0 ≤ i ∧ i < T.lastZeros then 0 else key i) 0
    (UInt8.ofNat mlen) = key at added
  have unchanged := same { T with addrmaskkey := key, lastZeros := mlen }
  split at added
  · cases added
  rename_i found searched
  rw [← grove.masks.root] at searched
  obtain rfl := loop_unique (rnSearch_holds (v := ⟨0, key⟩) grove.masks.holds) searched
  split at added
  · cases added
  rename_i leaf isLeaf
  split at added
  · exact unchanged _ rfl rfl (fun _ => grove.masks.find) added
  split at added
  · exact unchanged _ rfl rfl (fun zero => absurd rfl zero) added
  split at added
  · exact unchanged _ rfl rfl (fun zero => absurd rfl zero) added
  rename_i nonzero
  split at added
  · cases added
  · rename_i r nodes inserted
    cases added
    obtain ⟨others, m', grown, leaf⟩ := grove.intern true 0 nonzero (fresh nonzero) (by decide) inserted
    exact ⟨rfl, fun c outM away => others c outM (away nonzero).1 (away nonzero).2, m', grown, fun _ => leaf⟩
  · rename_i r nodes inserted
    cases added
    generalize (⟨pair + 2 * sizeofRadixNode, fun i => if i < mlen then key i else 0⟩ : Caddr) =
      cp at inserted ⊢
    have index := @maskIndex_le cp skip mlen (by omega)
    obtain ⟨others, m', grown, leaf⟩ :=
      grove.intern ((nodes rnm).flags.normal || (maskIndex cp skip mlen).1) (maskIndex cp skip mlen).2
      nonzero (fresh nonzero) (by omega) inserted
    exact ⟨rfl, fun c outM away => others c outM (away nonzero).1 (away nonzero).2, m', grown, fun _ => leaf⟩

def Held (nodes : Nat → RadixNode) (treetop : Nat) (v : Caddr) (a : Nat) : Prop :=
  ∃ leaf top, (nodes a).leaf? = some leaf ∧ (nodes treetop).node? = some top ∧
    firstDiff v leaf.key top.off (v 0).toNat = none

theorem rnInsert_held {fuel treetop t tt r : Nat}
    (inserted : rnInsert fuel nodes v treetop t tt = some (r, true, nodes')) :
    Held nodes treetop v r := by
  unfold rnInsert at inserted
  split at inserted
  · rename_i top found isTop searched
    split at inserted
    · cases inserted
    rename_i leaf isLeaf
    split at inserted
    · rename_i same
      cases inserted
      exact ⟨leaf, top, isLeaf, isTop, same⟩
    · dsimp only at inserted
      split at inserted
      · cases inserted
      · split at inserted <;> cases inserted
  · cases inserted

/-- A mask comes where it belongs among those of the chain: before one it is better than, it is not
    shorter, and it is not that mask, nor one behind. -/
def Places (nodes : Nat → RadixNode) (chain : List Nat) (new : Caddr) (rnB : Int) : Prop :=
  ∀ front a rest old, chain = front ++ a :: rest → maskOf nodes a = some old →
    better new rnB old (nodes a).b = true →
    rnB ≤ (nodes a).b ∧ ∀ c ∈ a :: rest, ∀ m, maskOf nodes c = some m → sameMask m new = false

section

variable {fuel maskTop treetop t tt p : Nat} {used : List Nat} {s m : Tree}
  {netmask : Option (Caddr × RadixNode)} {result : Added}

theorem Grove.single {s' : Tree} (grove : Grove T.nodes maskTop treetop used s m) (nonzero : t ≠ 0)
    (apart : t ≠ tt)
    (fresh : t ∉ used ∧ tt ∉ used) (index : ∀ n ∈ netmask, n.2.b < 0 ∧ -(2^31 : Int) ≤ n.2.b)
    (spec : Inserted T.nodes nodes v treetop s s' t tt) (stands : Stands nodes treetop s')
    (members : ∀ c, c ∈ s'.addrs → c = t ∨ c = tt ∨ c ∈ s.addrs)
    (route : routed fuel { T with nodes } t p treetop false netmask = some result) :
    ∃ T', result = .done t T' ∧ T'.maskTop = T.maskTop ∧
      ∃ s', Grove T'.nodes maskTop treetop (t :: tt :: used) s' m ∧
      t ∈ s'.find T'.nodes v := by
  have leafT : (nodes t).b < 0 := by
    rw [spec.new.1]
    decide
  obtain ⟨T', isDone, top, mask⟩ := routed_spec leafT index route
  have outS : t ∉ s.addrs ∧ tt ∉ s.addrs :=
    ⟨fun member => fresh.1 (grove.used t (List.mem_append_left _ member)),
    fun member => fresh.2 (grove.used tt (List.mem_append_left _ member))⟩
  have outside : ∀ c ∈ m.addrs, nodes c = T.nodes c := by
    intro c member
    apply spec.others c
    · exact fun inS => (List.nodup_append.mp grove.nodup).2.2 c inS c member rfl
    · rintro rfl
      exact fresh.1 (grove.used c (List.mem_append_right _ member))
    · rintro rfl
      exact fresh.2 (grove.used c (List.mem_append_right _ member))
  have nodup : (s'.addrs ++ m.addrs).Nodup := by
    rcases spec.addrs with perm | perm
    · exact (perm.append_right m.addrs).nodup_iff.mpr grove.nodup
    · apply (perm.append_right m.addrs).nodup_iff.mpr
      refine List.nodup_cons.mpr ⟨fun member => ?_,
        List.nodup_cons.mpr ⟨fun member => fresh.2 (grove.used tt member), grove.nodup⟩⟩
      rcases List.mem_cons.mp member with same | member
      · exact apart same
      · exact fresh.1 (grove.used t member)
  have planted : Planted nodes maskTop treetop (t :: tt :: used) s' m := by
    refine ⟨stands, ?_, grove.masks.congr outside, nodup, fun c member => ?_, grove.left.1, ?_⟩
    · obtain ⟨a, l, r, rfl⟩ := grove.inner
      cases s' with
      | leaf chain =>
        obtain ⟨nonempty, -, -, leaves⟩ := stands.holds
        have root : chain.headD 0 = a := stands.root.trans grove.routes.root.symm
        have negative := (leaves _ (headD_mem nonempty)).1
        rw [root, spec.bits a List.mem_cons_self] at negative
        have inner := grove.routes.holds.2.1
        omega
      | node a' l' r' => exact ⟨a', l', r', rfl⟩
    · rcases List.mem_append.mp member with inS | inM
      · rcases members c inS with rfl | rfl | old
        · exact List.mem_cons_self
        · exact List.mem_cons_of_mem _ List.mem_cons_self
        · exact List.mem_cons_of_mem _ (List.mem_cons_of_mem _ (grove.used c (List.mem_append_left _ old)))
      · exact List.mem_cons_of_mem _ (List.mem_cons_of_mem _ (grove.used c (List.mem_append_right _ inM)))
    · rw [outside _ grove.left.1]
      exact grove.left.2
  refine ⟨T', isDone, top, s', ⟨planted.routed mask index, fun chain member => ?_⟩, ?_⟩
  · rcases spec.chains chain member with rfl | old
    · exact ⟨.inr ⟨t, rfl⟩, List.pairwise_singleton _ t⟩
    · have fields : ∀ c ∈ chain, (T'.nodes c).b = (T.nodes c).b ∧ maskOf T'.nodes c = maskOf T.nodes c := by
        intro c inside
        have inS := s.chains_subset chain old c inside
        have kept := spec.leaves c inS (chains_leaves grove.routes.holds chain old c inside)
        have later := mask.others c fun same => outS.1 (same ▸ inS)
        have leaf? : (nodes c).leaf? = (T.nodes c).leaf? := by rw [RadixNode.leaf?, kept.2, ← RadixNode.leaf?]
        rw [later.1, later.2]
        exact ⟨kept.1, by rw [maskOf, maskOf, leaf?]⟩
      obtain ⟨uniform, ordered⟩ := grove.chains chain old
      exact ⟨uniform.congr fun c inside => (fields c inside).2, ordered.congr fields⟩
  · rw [find_congr fun c _ => ⟨mask.turn c, (mask.like c).node?⟩, spec.found]
    exact List.mem_singleton_self t

theorem Grove.chained {front rest : List Nat} {new : Caddr} {rnm : RadixNode}
    (grove : Grove T.nodes maskTop treetop used s m) (fresh : t ∉ used)
    (index : rnm.b < 0 ∧ -(2^31 : Int) ≤ rnm.b) (parts : s.find T.nodes v = front ++ rest)
    (masked : ∀ c ∈ s.find T.nodes v, (maskOf T.nodes c).isSome = true)
    (before : ∀ a ∈ front, Ranks T.nodes new rnm.b false a)
    (after : ∀ a ∈ rest, rnm.b ≤ (T.nodes a).b ∧ ∀ m, maskOf T.nodes a = some m → sameMask m new = false)
    (held : Holds nodes treetop (s.rechain T.nodes v (front ++ t :: rest)))
    (found : (s.rechain T.nodes v (front ++ t :: rest)).find nodes v = front ++ t :: rest)
    (enchained : Enchained T.nodes nodes v (s.find T.nodes v) t (T.nodes ((s.find T.nodes v).headD 0)).p)
    (route : routed fuel { T with nodes } t p treetop true (some (new, rnm)) = some result) :
    ∃ T', result = .done t T' ∧ T'.maskTop = T.maskTop ∧
      ∃ s', Grove T'.nodes maskTop treetop (t :: tt :: used) s' m ∧
      t ∈ s'.find T'.nodes v := by
  have leafT : (nodes t).b < 0 := by
    rw [enchained.new.1]
    decide
  obtain ⟨T', isDone, top, mask⟩ := routed_spec leafT (fun n isN => by cases isN; exact index) route
  obtain ⟨up, u, isNode, -⟩ := parent_links (v := v) grove.routes.holds
    (List.nodup_append.mp grove.nodup).1 grove.inner
  generalize (T.nodes ((s.find T.nodes v).headD 0)).p = way at enchained up isNode
  have outS : t ∉ s.addrs := fun member => fresh (grove.used t (List.mem_append_left _ member))
  have addrs : (s.rechain T.nodes v (front ++ t :: rest)).addrs.Perm (t :: s.addrs) := by
    apply Tree.rechain_addrs
    rw [parts]
    exact List.perm_middle
  have apart := (List.nodup_append.mp grove.nodup).2.2
  have outside : ∀ c ∈ m.addrs, nodes c = T.nodes c := by
    intro c member
    apply enchained.others c
    · exact fun inside => apart c (s.find_subset c inside) c member rfl
    · rintro rfl
      exact fresh (grove.used c (List.mem_append_right _ member))
    · rintro rfl
      exact apart c up c member rfl
  have low : ∀ c ∈ s.addrs, (nodes c).b = (T.nodes c).b := by
    intro c member
    by_cases inside : c ∈ s.find T.nodes v
    · exact (enchained.kept c inside).1
    by_cases atP : c = way
    · rw [atP]
      exact enchained.up
    · rw [enchained.others c inside (fun same => outS (same ▸ member)) atP]
  have planted : Planted nodes maskTop treetop (t :: tt :: used)
      (s.rechain T.nodes v (front ++ t :: rest)) m := by
    refine ⟨⟨held, (Tree.rechain_root grove.inner).trans grove.routes.root, fun c member => ?_⟩, ?_,
      grove.masks.congr outside, ?_,
      fun c member => ?_, grove.left.1, ?_⟩
    · rcases List.mem_cons.mp (addrs.mem_iff.mp member) with rfl | old
      · rw [enchained.new.1]
        decide
      · rw [low c old]
        exact grove.routes.low c old
    · obtain ⟨a, l, r, rfl⟩ := grove.inner
      rw [Tree.rechain_node]
      split
      · exact ⟨_, _, _, rfl⟩
      · exact ⟨_, _, _, rfl⟩
    · apply (addrs.append_right m.addrs).nodup_iff.mpr
      exact List.nodup_cons.mpr ⟨fun member => fresh (grove.used t member), grove.nodup⟩
    · rcases List.mem_append.mp member with inS | inM
      · rcases List.mem_cons.mp (addrs.mem_iff.mp inS) with rfl | old
        · exact List.mem_cons_self
        · exact List.mem_cons_of_mem _ (List.mem_cons_of_mem _ (grove.used c (List.mem_append_left _ old)))
      · exact List.mem_cons_of_mem _ (List.mem_cons_of_mem _ (grove.used c (List.mem_append_right _ inM)))
    · rw [outside _ grove.left.1]
      exact grove.left.2
  have bitT : (T'.nodes t).b = rnm.b := mask.here.1
  have maskT : maskOf T'.nodes t = some new := mask.here.2
  have kept : ∀ c ∈ s.find T.nodes v, (T'.nodes c).b = (T.nodes c).b ∧
      maskOf T'.nodes c = maskOf T.nodes c := by
    intro c inside
    have later := mask.others c fun same => outS (same ▸ s.find_subset c inside)
    rw [later.1, later.2]
    exact enchained.kept c inside
  refine ⟨T', isDone, top, _, ⟨planted.routed mask (fun n isN => by cases isN; exact index),
    fun chain member => ?_⟩, ?_⟩
  · rcases Tree.rechain_chains s chain member with rfl | ⟨old, away⟩
    · constructor
      · left
        intro a member
        by_cases isT : a = t
        · rw [isT, maskT]
          rfl
        · have inside : a ∈ s.find T.nodes v := by
            rw [parts]
            simpa [isT] using member
          rw [(kept a inside).2]
          exact masked a inside
      · have isChain : s.find T.nodes v ∈ s.chains := Tree.find_chains s
        have order := (grove.chains _ isChain).2
        have lows : ∀ c ∈ s.find T.nodes v, Low T.nodes c := fun c inside =>
          grove.routes.leaf (s.find_subset c inside) (chains_leaves grove.routes.holds _ isChain c inside)
        rw [parts] at order masked lows kept
        rw [← bitT] at before after
        exact ordered_insert order masked lows ⟨bitT ▸ index.1, bitT ▸ index.2⟩ kept maskT before after
    · have fields : ∀ c ∈ chain, (T'.nodes c).b = (T.nodes c).b ∧ maskOf T'.nodes c = maskOf T.nodes c := by
        intro c inside
        have inS := s.chains_subset chain old c inside
        have isT : c ≠ t := fun same => outS (same ▸ inS)
        have later := mask.others c isT
        have same := enchained.others c (away (List.nodup_append.mp grove.nodup).1 c inside) isT
          (leaf_ne_node (chains_leaves grove.routes.holds chain old c inside) isNode)
        rw [later.1, later.2]
        dsimp only
        rw [maskOf, maskOf, same]
        exact ⟨rfl, rfl⟩
      obtain ⟨uniform, ordered⟩ := grove.chains chain old
      exact ⟨uniform.congr fun c inside => (fields c inside).2, ordered.congr fields⟩
  · rw [find_congr fun c _ => ⟨mask.turn c, (mask.like c).node?⟩, found]
    exact List.mem_append_right _ List.mem_cons_self

theorem chainPass_none {a tt : Nat} {leaf : RnLeaf} (nonzero : a ≠ 0)
    (isLeaf : (nodes a).leaf? = some leaf) (host : leaf.mask = none) :
    chainPass nodes none 0 (tt, a) = some (.leave .same) := by
  simp only [chainPass, if_neg nonzero, isLeaf, host, Option.map_none, if_true]

theorem addrouteMasked_spec (grove : Grove T.nodes maskTop treetop used s m)
    (blank : T.nodes t = RadixNode.blank)
    (nonzero : t ≠ 0 ∧ tt ≠ 0) (apart : t ≠ tt) (fresh : t ∉ used ∧ tt ∉ used)
    (index : ∀ n ∈ netmask, n.2.b < 0 ∧ -(2^31 : Int) ≤ n.2.b)
    (fits : Held T.nodes treetop v ((s.find T.nodes v).headD 0) →
      ((maskOf T.nodes ((s.find T.nodes v).headD 0)).isSome = netmask.isSome) ∧
      ∀ n ∈ netmask, Places T.nodes (s.find T.nodes v) n.1 n.2.b)
    (added : addrouteMasked fuel T v treetop t tt netmask = some result) :
    ∃ rn T', result = .done rn T' ∧ T'.maskTop = T.maskTop ∧
      ∃ s', Grove T'.nodes maskTop treetop (if rn = 0 then used else t :: tt :: used) s' m ∧
        (rn ≠ 0 → rn ∈ s'.find T'.nodes v) := by
  have nodup := (List.nodup_append.mp grove.nodup).1
  have outS : t ∉ s.addrs ∧ tt ∉ s.addrs :=
    ⟨fun member => fresh.1 (grove.used t (List.mem_append_left _ member)),
    fun member => fresh.2 (grove.used tt (List.mem_append_left _ member))⟩
  have keeps : result = .done 0 T → ∃ rn T', result = .done rn T' ∧ T'.maskTop = T.maskTop ∧
      ∃ s', Grove T'.nodes maskTop treetop (if rn = 0 then used else t :: tt :: used) s' m ∧
          (rn ≠ 0 → rn ∈ s'.find T'.nodes v) :=
    fun isDone => ⟨0, T, isDone, rfl, s, grove, fun zero => absurd rfl zero⟩
  have moves : (∃ T', result = .done t T' ∧ T'.maskTop = T.maskTop ∧
    ∃ s', Grove T'.nodes maskTop treetop (t :: tt :: used) s' m ∧
      t ∈ s'.find T'.nodes v) → ∃ rn T', result = .done rn T' ∧ T'.maskTop = T.maskTop ∧
      ∃ s', Grove T'.nodes maskTop treetop (if rn = 0 then used else t :: tt :: used) s' m ∧
          (rn ≠ 0 → rn ∈ s'.find T'.nodes v) := by
    rintro ⟨T', isDone, top, s', grown, member⟩
    refine ⟨t, T', isDone, top, s', ?_, fun _ => member⟩
    rw [if_neg nonzero.1]
    exact grown
  unfold addrouteMasked at added
  split at added
  · cases added
  · -- the key is new
    rename_i r nodes inserted
    rcases grove.routes.insert nodup blank nonzero outS apart inserted with ⟨dup, -⟩
      | ⟨-, rfl, s', spec, stands, members⟩
    · cases dup
    · exact moves (grove.single nonzero.1 apart fresh index spec stands members added)
  · rename_i head nodes inserted
    have held := rnInsert_held inserted
    rcases grove.routes.insert nodup blank nonzero outS apart inserted with ⟨-, rfl, rfl⟩ | ⟨dup, -⟩
    swap
    · cases dup
    obtain ⟨masks, places⟩ := fits held
    obtain ⟨nonempty, -, linked, leaves⟩ := find_holds (v := v) grove.routes.holds
    have headIn := headD_mem nonempty
    cases netmask with
    | none =>
      obtain ⟨leaf, isLeaf⟩ := Option.isSome_iff_exists.mp (leaves _ headIn).2
      have host : leaf.mask = none := by
        rw [maskOf, isLeaf] at masks
        exact Option.isNone_iff_eq_none.mp (by simpa using masks)
      have pass := @chainPass_none _ _ ((s.find T.nodes v).headD 0) _ (linked.nonzero headIn) isLeaf host
      cases fuel with
      | zero => cases added
      | succ fuel =>
        simp only [Option.map_none, Option.getD_none, loop, pass] at added
        exact keeps (Option.some.inj added).symm
    | some n =>
      obtain ⟨new, rnm⟩ := n
      have masked : ∀ c ∈ s.find T.nodes v, (maskOf T.nodes c).isSome = true := by
        rcases (grove.chains _ (Tree.find_chains s)).1 with all | ⟨a, alone⟩
        · exact all
        · intro c inside
          rw [alone] at inside masks
          rw [List.mem_singleton.mp inside]
          exact masks
      have low := index _ rfl
      split at added
      · cases added
      · exact keeps (Option.some.inj added).symm
      · rename_i walked
        rcases chainPass_walks linked masked walked with same | ⟨front, rest, parts, same, -⟩
        · cases same
        · cases same
      · rename_i last next walked
        rcases chainPass_walks linked masked walked with same | ⟨front, rest, parts, same, before, first⟩
        · cases same
        cases same
        have after : ∀ a ∈ rest, rnm.b ≤ (T.nodes a).b ∧ ∀ m, maskOf T.nodes a = some m →
            sameMask m new = false := by
          cases rest with
          | nil => exact List.forall_mem_nil _
          | cons a rest =>
            obtain ⟨old, isOld⟩ := Option.isSome_iff_exists.mp (masked a (by rw [parts]; simp))
            obtain ⟨(shorter : rnm.b ≤ (T.nodes a).b), other⟩ :=
              places _ rfl front a rest old parts isOld (first a rfl old isOld).2
            intro c inside
            refine ⟨?_, other c inside⟩
            rcases List.mem_cons.mp inside with rfl | behind
            · exact shorter
            · have order := (grove.chains _ (@Tree.find_chains T.nodes v s)).2
              rw [Ordered, parts] at order
              obtain ⟨m, -, precedes⟩ :=
                (List.pairwise_cons.mp (List.pairwise_append.mp order).2.1).1 c behind
              have longer := (precedes old isOld).1
              rw [maskLength, maskLength] at longer
              omega
        split at added
        · cases added
        · rename_i head nodes enchained
          rcases List.eq_nil_or_concat front with none | ⟨earlier, last, behind⟩
          · obtain ⟨holds, found, -, spec⟩ :=
              enchain_front grove.routes.holds nodup grove.inner parts outS.1 nonzero.1 blank none enchained
            exact moves (grove.chained fresh.1 low parts masked before after holds found spec added)
          · rw [List.concat_eq_append] at behind
            obtain ⟨holds, found, -, spec⟩ :=
              enchain_behind grove.routes.holds nodup grove.inner parts outS.1 nonzero.1 blank
                behind enchained
            exact moves (grove.chained fresh.1 low parts masked before after holds found spec added)

end

/-- The chain of leaves that a search for `v` leads to. -/
def Leads (nodes : Nat → RadixNode) (treetop : Nat) (v : Caddr) (chain : List Nat) : Prop :=
  chain ≠ [] ∧ (∃ fuel, rnSearch fuel nodes v treetop = some (chain.headD 0)) ∧
    Linked (dup nodes) (chain.headD 0) chain

theorem Stands.leads {s : Tree} {treetop : Nat} (stands : Stands nodes treetop s) :
    Leads nodes treetop v (s.find nodes v) := by
  obtain ⟨nonempty, -, linked, -⟩ := find_holds (v := v) stands.holds
  have searched := rnSearch_holds (v := v) stands.holds
  rw [stands.root] at searched
  exact ⟨nonempty, ⟨_, searched⟩, linked⟩

/-- The new route does not meet a `NULL` mask among those to `v`, and its mask comes where it belongs. -/
def Fits (fuel : Nat) (T : Tables) (v : Caddr) (m : Option Caddr) (treetop pair : Nat) : Prop :=
  ∀ chain, Leads T.nodes treetop v chain → Held T.nodes treetop v (chain.headD 0) →
    (maskOf T.nodes (chain.headD 0)).isSome = m.isSome ∧
    ∀ netmask ∈ m, ∀ top rnm T₁ leaf, (T.nodes treetop).node? = some top →
      rnAddmask fuel T netmask false top.off pair = some (rnm, T₁) → (T₁.nodes rnm).leaf? = some leaf →
      Places T.nodes chain leaf.key (T₁.nodes rnm).b

def Free (pair : Nat) (used : List Nat) : Prop := pair ≠ 0 → pair ∉ used ∧ pair + sizeofRadixNode ∉ used

theorem rnAddroute_spec {fuel treetop t pair : Nat} {m : Option Caddr} {used : List Nat}
    {s masks : Tree} {result : Added} (grove : Grove T.nodes T.maskTop treetop used s masks)
    (blank : T.nodes t = RadixNode.blank) (nonzero : t ≠ 0) (fresh : Free t used)
    (freshPair : Free pair (taken t used)) (fits : Fits fuel T v m treetop pair)
    (added : rnAddroute fuel T v m treetop t (t + sizeofRadixNode) pair = some result) :
    ∃ rn T', result = .done rn T' ∧ ∃ s' masks',
      Grove T'.nodes T'.maskTop treetop (if rn = 0 then taken pair used
        else t :: (t + sizeofRadixNode) :: taken pair used) s' masks' ∧
      (rn ≠ 0 → rn ∈ s'.find T'.nodes v) := by
  have apart : t ≠ t + sizeofRadixNode := by simp [sizeofRadixNode]
  have second : t + sizeofRadixNode ≠ 0 := by simp [sizeofRadixNode]
  have away : pair ≠ 0 → (t ≠ pair ∧ t ≠ pair + sizeofRadixNode) ∧
    (pair ∉ used ∧ pair + sizeofRadixNode ∉ used) ∧
      t + sizeofRadixNode ≠ pair ∧ t + sizeofRadixNode ≠ pair + sizeofRadixNode := by
    intro pairs
    have outside := freshPair pairs
    simp only [taken, if_neg nonzero, List.mem_cons, not_or] at outside
    obtain ⟨⟨one, two, three⟩, four, five, six⟩ := outside
    exact ⟨⟨Ne.symm one, Ne.symm four⟩, ⟨three, six⟩, Ne.symm two, Ne.symm five⟩
  have freshT : t ∉ taken pair used ∧ t + sizeofRadixNode ∉ taken pair used := by
    unfold taken
    split
    · exact fresh nonzero
    · rename_i pairs
      obtain ⟨first, -, last⟩ := away pairs
      simp only [List.mem_cons, not_or]
      exact ⟨⟨first.1, first.2, (fresh nonzero).1⟩, last.1, last.2, (fresh nonzero).2⟩
  have leads := grove.routes.leads (v := v)
  unfold rnAddroute at added
  split at added
  · -- a host
    obtain ⟨rn, T', isDone, top, s', grown, member⟩ :=
      addrouteMasked_spec grove.taken blank ⟨nonzero, second⟩ apart freshT
      (fun n isN => by cases isN) (fun held => ⟨(fits _ leads held).1, fun n isN => by cases isN⟩) added
    exact ⟨rn, T', isDone, s', masks, top ▸ grown, member⟩
  rename_i netmask
  split at added
  · cases added
  rename_i top isTop
  split at added
  · cases added
  rename_i rnm T₁ interned
  obtain ⟨maskTop, others, masks', grown, leafOf⟩ :=
    rnAddmask_spec grove (fun pairs => (away pairs).2.1) interned
  split at added
  · rename_i zero
    cases added
    exact ⟨0, T₁, rfl, s, masks', maskTop ▸ grown, fun zero => absurd rfl zero⟩
  rename_i found
  split at added
  · cases added
  rename_i leaf isLeaf
  obtain ⟨memR, leafR⟩ := leafOf found
  have same : ∀ c ∈ s.addrs, T₁.nodes c = T.nodes c := by
    intro c member
    have inUsed := grove.used c (List.mem_append_left _ member)
    refine others c (fun inM => (List.nodup_append.mp grove.nodup).2.2 c member c inM rfl) fun pairs => ?_
    obtain ⟨-, outside, -⟩ := away pairs
    exact ⟨fun here => outside.1 (here ▸ inUsed), fun here => outside.2 (here ▸ inUsed)⟩
  have blank₁ : T₁.nodes t = RadixNode.blank :=
    (others t (fun inM => (fresh nonzero).1 (grove.used t (List.mem_append_right _ inM)))
      fun pairs => (away pairs).1).trans blank
  have find : s.find T₁.nodes v = s.find T.nodes v := find_congr fun c member => by
    rw [same c member]; exact ⟨rfl, rfl⟩
  have fits₁ : Held T₁.nodes treetop v ((s.find T₁.nodes v).headD 0) →
      ((maskOf T₁.nodes ((s.find T₁.nodes v).headD 0)).isSome = (some (leaf.key, T₁.nodes rnm)).isSome) ∧
      ∀ n ∈ some (leaf.key, T₁.nodes rnm), Places T₁.nodes (s.find T₁.nodes v) n.1 n.2.b := by
    intro held
    have headIn := grove.routes.find (v := v).1
    have topIn := Tree.root_mem grove.routes.holds
    rw [grove.routes.root] at topIn
    rw [find, Held, same _ headIn, same _ topIn] at held
    obtain ⟨isSome, places⟩ := fits _ leads held
    rw [find, maskOf, same _ headIn]
    refine ⟨isSome, fun n isN front a rest old parts isOld better => ?_⟩
    cases isN
    have inside : ∀ c ∈ a :: rest, T₁.nodes c = T.nodes c := fun c member =>
      same c (s.find_subset c (parts ▸ List.mem_append_right front member))
    rw [maskOf, inside a List.mem_cons_self] at isOld
    rw [inside a List.mem_cons_self] at better ⊢
    obtain ⟨shorter, other⟩ := places netmask rfl top rnm T₁ leaf isTop interned isLeaf front a rest
      old parts isOld better
    refine ⟨shorter, fun c member m isM => other c member m ?_⟩
    rw [maskOf, inside c member] at isM
    exact isM
  have low := grown.masks.leaf memR leafR
  obtain ⟨rn, T', isDone, top', s', grown', member⟩ :=
    addrouteMasked_spec grown blank₁ ⟨nonzero, second⟩ apart freshT
    (fun n isN => by cases isN; exact low) fits₁ added
  exact ⟨rn, T', isDone, s', masks', (top'.trans maskTop) ▸ grown', member⟩

theorem Grove.congr {maskTop treetop : Nat} {used : List Nat} {s m : Tree}
    (grove : Grove nodes maskTop treetop used s m)
    (same : ∀ c ∈ s.addrs ++ m.addrs, nodes' c = nodes c) : Grove nodes' maskTop treetop used s m := by
  have inS := fun c member => same c (List.mem_append_left m.addrs member)
  have inM := fun c member => same c (List.mem_append_right s.addrs member)
  refine ⟨⟨grove.routes.congr inS, grove.inner, grove.masks.congr inM, grove.nodup, grove.used,
    grove.left.1, ?_⟩, fun chain member => ?_⟩
  · rw [inM _ grove.left.1]
    exact grove.left.2
  · obtain ⟨uniform, ordered⟩ := grove.chains chain member
    have fields : ∀ c ∈ chain, (nodes' c).b = (nodes c).b ∧ maskOf nodes' c = maskOf nodes c := by
      intro c inside
      rw [maskOf, maskOf, inS c (s.chains_subset chain member c inside)]
      exact ⟨rfl, rfl⟩
    exact ⟨uniform.congr fun c inside => (fields c inside).2, ordered.congr fields⟩

def headNodes (base : Nat) : List Nat := [base, base + sizeofRadixNode, base + 2 * sizeofRadixNode]

def headTree (base : Nat) : Tree :=
  .node (base + sizeofRadixNode) (.leaf [base]) (.leaf [base + 2 * sizeofRadixNode])

theorem rnInithead_others {base off c : Nat} (away : c ∉ headNodes base) :
    (rnInithead T base off).nodes c = T.nodes c := by
  simp only [headNodes, List.mem_cons, List.not_mem_nil, or_false, not_or] at away
  simp only [rnInithead]
  rw [Function.update_of_ne away.2.2, Function.update_of_ne away.1, Function.update_of_ne away.2.1]

theorem rnInithead_nodes (T : Tables) (base off : Nat) :
    (rnInithead T base off).nodes base = ⟨0, base + sizeofRadixNode, -1 - off, 0,
      ⟨true, true, false⟩, .leaf ⟨T.zeros, none, 0⟩⟩ ∧
      (rnInithead T base off).nodes (base + sizeofRadixNode) =
        ⟨0, base + sizeofRadixNode, off, 0x80 >>> UInt8.ofNat (off % 8),
        ⟨true, true, false⟩, .node ⟨off / 8, base, base + 2 * sizeofRadixNode⟩⟩ ∧
      (rnInithead T base off).nodes (base + 2 * sizeofRadixNode) =
        ⟨0, base + sizeofRadixNode, -1 - off, 0, ⟨true, true, false⟩, .leaf ⟨T.ones, none, 0⟩⟩ := by
  simp only [rnInithead]
  refine ⟨?_, ?_, ?_⟩
  · rw [Function.update_of_ne (by simp [sizeofRadixNode]), Function.update_self]
  · rw [Function.update_of_ne (by simp [sizeofRadixNode]),
      Function.update_of_ne (by simp [sizeofRadixNode]), Function.update_self]
  · rw [Function.update_self]

theorem rnInithead_stands {base off : Nat} (nonzero : base ≠ 0) (short : off < 2^15) :
    Stands (rnInithead T base off).nodes (base + sizeofRadixNode) (headTree base) ∧
      ((rnInithead T base off).nodes base).leaf?.isSome = true := by
  obtain ⟨left, top, right⟩ := rnInithead_nodes T base off
  have leaf : ∀ a, ((rnInithead T base off).nodes a).p = base + sizeofRadixNode →
    ((rnInithead T base off).nodes a).b = -1 - off →
      dup (rnInithead T base off).nodes a = 0 → ((rnInithead T base off).nodes a).leaf?.isSome =
        true → a ≠ 0 →
      Holds (rnInithead T base off).nodes (base + sizeofRadixNode) (.leaf [a]) := by
    intro a p b ends isLeaf nonzero
    refine ⟨List.cons_ne_nil _ _, p, ⟨rfl, nonzero, ends⟩, fun c member => ?_⟩
    rw [List.mem_singleton.mp member, b]
    exact ⟨by omega, isLeaf⟩
  refine ⟨⟨⟨by
    simp [sizeofRadixNode], ?_, ?_, ⟨off / 8, ?_⟩, leaf _ ?_ ?_ ?_ ?_ nonzero,
      leaf _ ?_ ?_ ?_ ?_ (by simp [sizeofRadixNode])⟩,
    rfl, fun c member => ?_⟩, by rw [left]; rfl⟩
  · rw [top]
    exact Int.natCast_nonneg off
  · rw [top]
  · rw [top]
    rfl
  · rw [left]
  · rw [left]
  · rw [dup, left]
    rfl
  · rw [left]
    rfl
  · rw [right]
  · rw [right]
  · rw [dup, right]
    rfl
  · rw [right]
    rfl
  · simp only [headTree, Tree.addrs, List.cons_append, List.nil_append, List.mem_cons,
      List.not_mem_nil, or_false] at member
    rcases member with rfl | rfl | rfl
    · rw [top]
      dsimp only
      omega
    · rw [left]
      dsimp only
      omega
    · rw [right]
      dsimp only
      omega

def heads (T : Tables) (maskBase base off : Nat) : Tables :=
  rnInithead (rnInithead { T with maskTop := maskBase + sizeofRadixNode } maskBase 0) base off

theorem heads_grove {maskBase base off : Nat} (nonzero : maskBase ≠ 0 ∧ base ≠ 0) (short : off < 2^15)
    (apart : maskBase + 3 * sizeofRadixNode ≤ base ∨ base + 3 * sizeofRadixNode ≤ maskBase) :
    Grove (heads T maskBase base off).nodes (maskBase + sizeofRadixNode) (base + sizeofRadixNode)
    (headNodes base ++ headNodes maskBase)
      (headTree base) (headTree maskBase) := by
  have disjoint : ∀ c, c ∈ headNodes base → c ∈ headNodes maskBase → False := by
    intro c inBase inMask
    simp only [headNodes, sizeofRadixNode, List.mem_cons, List.not_mem_nil, or_false] at inBase inMask apart
    omega
  have addrs : ∀ base c, c ∈ (headTree base).addrs ↔ c ∈ headNodes base := by
    intro base c
    simp only [headTree, Tree.addrs, headNodes, List.cons_append, List.nil_append, List.mem_cons,
      List.not_mem_nil, or_false]
    tauto
  have nodup : ∀ base, (headTree base).addrs.Nodup := by
    intro base
    simp [headTree, Tree.addrs, sizeofRadixNode]
  obtain ⟨masks, left⟩ := @rnInithead_stands { T with maskTop := maskBase + sizeofRadixNode }
    maskBase 0 nonzero.1 (by decide)
  obtain ⟨routes, -⟩ :=
    @rnInithead_stands (rnInithead { T with maskTop := maskBase + sizeofRadixNode } maskBase 0)
      base off nonzero.2 short
  have kept : ∀ c ∈ headNodes maskBase, (heads T maskBase base off).nodes c =
      (rnInithead { T with maskTop := maskBase + sizeofRadixNode } maskBase 0).nodes c := fun c member =>
    rnInithead_others fun inBase => disjoint c inBase member
  refine ⟨⟨routes, ⟨_, _, _, rfl⟩, masks.congr fun c member =>
    kept c ((addrs maskBase c).mp member), ?_, fun c member => ?_, ?_, ?_⟩,
    fun chain member => ?_⟩
  · refine List.nodup_append.mpr ⟨nodup base, nodup maskBase, fun a inBase b inMask same => ?_⟩
    exact disjoint a ((addrs base a).mp inBase) ((addrs maskBase a).mp (same ▸ inMask))
  · rw [List.mem_append, addrs, addrs, ← List.mem_append] at member
    exact member
  · rw [Nat.add_sub_cancel, addrs]
    exact List.mem_cons_self
  · rw [Nat.add_sub_cancel, kept _ List.mem_cons_self]
    exact left
  · simp only [headTree, Tree.chains, List.cons_append, List.nil_append, List.mem_cons,
      List.not_mem_nil, or_false] at member
    rcases member with rfl | rfl
    · exact ⟨.inr ⟨_, rfl⟩, List.pairwise_singleton _ _⟩
    · exact ⟨.inr ⟨_, rfl⟩, List.pairwise_singleton _ _⟩

def alloc (T : Tables) (t : Nat) : Tables := { T with nodes := zalloc T.nodes t }

/-- The tables that routes have been added to, the node at the top, and the nodes that are used. -/
inductive Grown : Tables → Nat → List Nat → Prop
  | init (T : Tables) (maskBase base off : Nat) (nonzero : maskBase ≠ 0 ∧ base ≠ 0) (short : off < 2^15)
      (apart : maskBase + 3 * sizeofRadixNode ≤ base ∨ base + 3 * sizeofRadixNode ≤ maskBase) :
      Grown (heads T maskBase base off) (base + sizeofRadixNode) (headNodes base ++ headNodes maskBase)
  | add {T T' : Tables} {treetop fuel t pair rn : Nat} {used : List Nat} (v : Caddr)
      (m : Option Caddr) (grown : Grown T treetop used)
      (nonzero : t ≠ 0) (fresh : Free t used) (freshPair : Free pair (taken t used))
        (fits : Fits fuel (alloc T t) v m treetop pair)
      (added : rnAddroute fuel (alloc T t) v m treetop t (t + sizeofRadixNode) pair = some (.done rn T')) :
      Grown T' treetop (if rn = 0 then taken pair used else t :: (t + sizeofRadixNode) :: taken pair used)

theorem alloc_grove {treetop t : Nat} {used : List Nat} {s m : Tree}
    (grove : Grove T.nodes T.maskTop treetop used s m) (nonzero : t ≠ 0) (fresh : Free t used) :
    Grove (alloc T t).nodes (alloc T t).maskTop treetop used s m := by
  have outside := fresh nonzero
  apply grove.congr
  intro c member
  have inUsed := grove.used c member
  exact zalloc_others (fun same => outside.1 (same ▸ inUsed)) fun same => outside.2 (same ▸ inUsed)

theorem Grown.grove {treetop : Nat} {used : List Nat} (grown : Grown T treetop used) :
    ∃ s m, Grove T.nodes T.maskTop treetop used s m := by
  induction grown with
  | init T maskBase base off nonzero short apart => exact ⟨_, _, heads_grove nonzero short apart⟩
  | @add T T' treetop fuel t pair rn used v m grown nonzero fresh freshPair fits added ih =>
    obtain ⟨s, masks, grove⟩ := ih
    obtain ⟨rn', T'', isDone, s', masks', later, -⟩ :=
      rnAddroute_spec (alloc_grove grove nonzero fresh) (zalloc_blank T.nodes t)
        nonzero fresh freshPair fits added
    cases isDone
    exact ⟨s', masks', later⟩

/-- A route that fits is added without a `NULL` mask being read, and the routes to its key are in order. -/
theorem addroute_in_order {treetop fuel t pair : Nat} {used : List Nat} {result : Added} (v : Caddr)
    (m : Option Caddr) (grown : Grown T treetop used) (nonzero : t ≠ 0) (fresh : Free t used)
    (freshPair : Free pair (taken t used)) (fits : Fits fuel (alloc T t) v m treetop pair)
    (added : rnAddroute fuel (alloc T t) v m treetop t (t + sizeofRadixNode) pair = some result) :
    ∃ rn T', result = .done rn T' ∧ (rn ≠ 0 → ∃ chain, Leads T'.nodes treetop v chain ∧ rn ∈ chain ∧
      Ordered T'.nodes chain) := by
  obtain ⟨s, masks, grove⟩ := grown.grove
  obtain ⟨rn, T', isDone, s', masks', later, member⟩ :=
    rnAddroute_spec (alloc_grove grove nonzero fresh) (zalloc_blank T.nodes t)
      nonzero fresh freshPair fits added
  exact ⟨rn, T', isDone, fun returned => ⟨_, later.routes.leads, member returned,
    (later.chains _ (Tree.find_chains s')).2⟩⟩

def started : Tables :=
  heads ⟨⟨fun _ => RadixNode.blank, fun _ => ⟨0, ⟨false, false, false⟩, 0, .leaf 0, 0⟩,
    ⟨10, fun _ => 0⟩, ⟨26, fun _ => 0xff⟩⟩,
    0, 16, fun _ => 0, 0, [9001, 9002, 9003]⟩ 1000 2000 32

def sockaddr (a b c d : UInt8) : Caddr := ⟨400, fun i => [16, 2, 0, 0, a, b, c, d].getD i 0⟩

def netmaskOf (a b c d : UInt8) : Caddr := ⟨500, fun i => [8, 0, 0, 0, a, b, c, d].getD i 0⟩

def routed10 : Tables :=
  match rnAddroute 8 (alloc started 3000) (sockaddr 10 0 0 0) (some (netmaskOf 255 0 0 0))
      2024 3000 3024 5000 with
  | some (.done _ T) => T
  | _ => started

theorem routed10_added :
    rnAddroute 8 (alloc started 3000) (sockaddr 10 0 0 0)
    (some (netmaskOf 255 0 0 0)) 2024 3000 3024 5000 = some (.done 3000 routed10) := rfl

theorem leads_head {treetop head : Nat} {chain : List Nat} (leads : Leads nodes treetop v chain)
    (searched : rnSearch 8 nodes v treetop = some head) : chain.headD 0 = head := by
  obtain ⟨-, ⟨fuel, found⟩, -⟩ := leads
  exact loop_unique found searched

theorem leads_single {treetop head : Nat} {chain : List Nat} (leads : Leads nodes treetop v chain)
    (searched : rnSearch 8 nodes v treetop = some head) (alone : dup nodes head = 0) : chain = [head] := by
  have isHead := leads_head leads searched
  obtain ⟨nonempty, -, linked⟩ := leads
  cases chain with
  | nil => exact absurd rfl nonempty
  | cons c rest =>
    change c = head at isHead
    subst isHead
    obtain ⟨-, -, behind⟩ := linked
    rw [alone] at behind
    rw [behind.first_eq_zero_iff.mp rfl]

theorem routed10_grown :
    Grown routed10 2024 (3000 :: 3024 :: 5000 :: 5024 :: (headNodes 2000 ++ headNodes 1000)) := by
  apply Grown.add (sockaddr 10 0 0 0) (some (netmaskOf 255 0 0 0))
    (Grown.init _ 1000 2000 32 (by decide) (by decide) (by decide))
    (by decide) (fun _ => by decide) (fun _ => by decide) _ routed10_added
  intro chain leads held
  rw [@leads_head _ _ _ 2000 _ leads rfl] at held
  obtain ⟨leaf, top, isLeaf, isTop, same⟩ := held
  cases (show some (RnLeaf.mk ⟨10, fun _ => 0⟩ none 0) = some leaf from isLeaf)
  cases (show some (RnNode.mk 4 2000 2048) = some top from isTop)
  cases (show some 4 = none from same)

/-- The tables at the start with the default route asked for: the mask of the leaf on the left is `NULL`. -/
theorem default_route_reads_null :
    rnAddroute 8 (alloc started 3000) (sockaddr 0 0 0 0)
    (some (netmaskOf 0 0 0 0)) 2024 3000 3024 5000 = some .nullMask := rfl

theorem longer_route_first : ∃ rn T',
    rnAddroute 8 (alloc routed10 3100) (sockaddr 10 0 0 0)
    (some (netmaskOf 255 255 0 0)) 2024 3100 3124 5100 = some (.done rn T') ∧
      (rn ≠ 0 → ∃ chain, Leads T'.nodes 2024 (sockaddr 10 0 0 0) chain ∧ rn ∈ chain ∧
        Ordered T'.nodes chain) := by
  have fits : Fits 8 (alloc routed10 3100) (sockaddr 10 0 0 0) (some (netmaskOf 255 255 0 0)) 2024 5100 := by
    intro chain leads held
    obtain rfl := @leads_single _ _ _ 3000 _ leads rfl rfl
    refine ⟨rfl,
      fun netmask isM top rnm T₁ leaf isTop interned isLeaf front a rest old parts isOld better => ?_⟩
    cases isM
    cases (show some (RnNode.mk 4 3024 2048) = some top from isTop)
    have facts : (rnAddmask 8 (alloc routed10 3100) (netmaskOf 255 255 0 0) false 4 5100).map
      (fun r => ((r.2.nodes r.1).b,
        (r.2.nodes r.1).leaf?.bind fun l => (maskOf (alloc routed10 3100).nodes 3000).map fun m =>
          sameMask m l.key)) =
        some (-49, some false) := rfl
    rw [interned] at facts
    simp only [Option.map_some, isLeaf, Option.bind_some, Option.some.injEq, Prod.mk.injEq] at facts
    obtain ⟨rfl, rfl, rfl⟩ : front = [] ∧ a = 3000 ∧ rest = [] := by
      cases front with
      | nil => cases parts; exact ⟨rfl, rfl, rfl⟩
      | cons c front => cases front <;> cases parts
    refine ⟨facts.1 ▸ (show (-49 : Int) ≤ -41 by decide), fun c inside m isM => ?_⟩
    rw [List.mem_singleton.mp inside] at isM
    rw [isM] at facts
    exact Option.some.inj facts.2
  cases added : rnAddroute 8 (alloc routed10 3100) (sockaddr 10 0 0 0)
      (some (netmaskOf 255 255 0 0)) 2024 3100 3124 5100 with
  | none =>
    have answers : (rnAddroute 8 (alloc routed10 3100) (sockaddr 10 0 0 0)
      (some (netmaskOf 255 255 0 0)) 2024 3100 3124 5100).isSome = true := rfl
    rw [added] at answers
    cases answers
  | some result =>
    obtain ⟨rn, T', rfl, order⟩ := addroute_in_order (sockaddr 10 0 0 0)
      (some (netmaskOf 255 255 0 0)) routed10_grown (by decide) (fun _ => by decide)
      (fun _ => by decide) fits added
    exact ⟨rn, T', rfl, order⟩

end Embryo.Radix
