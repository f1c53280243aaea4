import Embryo.Radix.Patricia

namespace Embryo.Radix

open Embryo.Machine

def FreshPair (nodes : Nat → RadixNode) (treetop t : Nat) : Prop :=
  t ≠ 0 ∧ ∀ c, Below nodes treetop c → c ≠ t ∧ c ≠ t + sizeofRadixNode

/-- What `rn_inithead` and then calls of `rn_insert` make, for keys of the length `len` and with
    zeroed pairs of nodes. The list has the leaves that have been put in, with their keys. -/
inductive Built (T : Tables) (base off : Nat) (len : UInt8) : (Nat → RadixNode) → List (Nat × Caddr) → Prop
  | init : Built T base off len (rnInithead T base (8 * off)).nodes []
  | insert {nodes nodes' : Nat → RadixNode} {keys : List (Nat × Caddr)} {fuel t r : Nat}
      {isduped : Bool} (v : Caddr)
      (built : Built T base off len nodes keys) (length : v 0 = len)
        (fresh : FreshPair nodes (base + sizeofRadixNode) t)
      (inserted : rnInsert fuel (zalloc nodes t) v (base + sizeofRadixNode) t
        (t + sizeofRadixNode) = some (r, isduped, nodes')) :
      Built T base off len nodes' (if isduped then keys else (r, v) :: keys)

def stored (T : Tables) (base : Nat) (keys : List (Nat × Caddr)) : List LeafKey :=
  keys.map (fun k => (k.1, k.2.bytes)) ++ [(base, T.zeros.bytes), (base + 2 * sizeofRadixNode, T.ones.bytes)]

structure Stored (T : Tables) (base off : Nat) (len : UInt8) (nodes : Nat → RadixNode)
    (keys : List (Nat × Caddr)) (s : Tree) : Prop where
  patricia : Patricia nodes (base + sizeofRadixNode) off s
  within : (s.shape nodes).Within (max (8 * len.toNat) (8 * off + 1))
  leaves : (s.shape nodes).keys.Perm (stored T base keys)
  length : ∀ k ∈ keys, k.2 0 = len ∧ off < len.toNat

variable {T : Tables} {base off fuel treetop t : Nat} {len : UInt8} {nodes nodes' : Nat → RadixNode}
  {keys : List (Nat × Caddr)} {s : Tree}
  {v : Caddr}

theorem Patricia.congr (P : Patricia nodes treetop off s) (same : ∀ c ∈ s.addrs, nodes' c = nodes c) :
    Patricia nodes' treetop off s ∧ s.shape nodes' = s.shape nodes := by
  have kept : ∀ c ∈ s.addrs, Kept nodes nodes' c := by
    intro c member
    have here := same c member
    exact ⟨by rw [here], by rw [here], by rw [here], by rw [here], by rw [here]⟩
  have shape := shape_congr P.stands.holds kept
  have top := Tree.root_mem P.stands.holds
  rw [P.stands.root] at top
  refine ⟨⟨P.stands.congr same, P.nodup, P.single, P.inner, P.indexed.congr kept, ?_, ?_⟩, shape⟩
  · rw [same treetop top]
    exact P.index
  · rw [shape]
    exact P.sound

theorem Patricia.outside (P : Patricia nodes treetop off s) (fresh : FreshPair nodes treetop t) :
    t ∉ s.addrs ∧ t + sizeofRadixNode ∉ s.addrs := by
  have inside : ∀ c ∈ s.addrs, c ≠ t ∧ c ≠ t + sizeofRadixNode := by
    intro c member
    have below := addrs_below P.stands.holds P.single member
    rw [P.stands.root] at below
    exact fresh.2 c below
  exact ⟨fun member => (inside _ member).1 rfl, fun member => (inside _ member).2 rfl⟩

theorem Patricia.zalloc (P : Patricia nodes treetop off s) (fresh : FreshPair nodes treetop t) :
    Patricia (zalloc nodes t) treetop off s ∧ s.shape (Radix.zalloc nodes t) = s.shape nodes := by
  obtain ⟨first, second⟩ := P.outside fresh
  exact P.congr fun c member => zalloc_others (fun same => first (same ▸ member)) fun same =>
    second (same ▸ member)

theorem Patricia.step (P : Patricia nodes treetop off s) (fresh : FreshPair nodes treetop t)
    (enough : s.depth < fuel) :
    let zeroed := Radix.zalloc nodes t
    let c := s.leafOf zeroed v
    ((∀ i, off ≤ i → i < (v 0).toNat → v i = keyOf zeroed c i) ∧
      rnInsert fuel zeroed v treetop t (t + sizeofRadixNode) = some (c, true, zeroed)) ∨
      ∃ i b nodes' s', off ≤ i ∧ i < (v 0).toNat ∧ v i ≠ keyOf zeroed c i ∧
        rnInsert fuel zeroed v treetop t (t + sizeofRadixNode) = some (t, false, nodes') ∧
        Grew zeroed nodes' v treetop off s s' b t (t + sizeofRadixNode) := by
  intro zeroed c
  obtain ⟨zeroed_patricia, -⟩ := P.zalloc fresh
  by_cases same : ∀ i, off ≤ i → i < (v 0).toNat → v i = keyOf zeroed c i
  · exact .inl ⟨same, zeroed_patricia.insert_same enough same⟩
  · simp only [not_forall] at same
    obtain ⟨i, low, high, differ⟩ := same
    have nonzero : t ≠ 0 ∧ t + sizeofRadixNode ≠ 0 := ⟨fresh.1, by simp [sizeofRadixNode]⟩
    obtain ⟨b, nodes', s', inserted, grew⟩ :=
      zeroed_patricia.insert_new enough (zalloc_blank nodes t) nonzero (P.outside fresh)
      (by simp [sizeofRadixNode]) low high differ
    exact .inr ⟨i, b, nodes', s', low, high, differ, inserted, grew⟩

theorem rnInsert_unique {fuel fuel' tt : Nat} {result result' : Nat × Bool × (Nat → RadixNode)}
    (inserted : rnInsert fuel nodes v treetop t tt = some result)
    (inserted' : rnInsert fuel' nodes v treetop t tt = some result') :
    result = result' := by
  have more := rnInsert_mono inserted (Nat.le_max_left fuel fuel')
  have more' := rnInsert_mono inserted' (Nat.le_max_right fuel fuel')
  exact Option.some.inj (more.symm.trans more')

theorem Built.stored (built : Built T base off len nodes keys) (nonzero : base ≠ 0)
    (short : 8 * off < 2^15) (zeros : T.zeros off = 0)
    (ones : T.ones off = 0xff) : ∃ s, Stored T base off len nodes keys s := by
  induction built with
  | init =>
    obtain ⟨P, shape⟩ := rnInithead_patricia nonzero short zeros ones
    refine ⟨_, P, ?_, ?_, fun k member => absurd member List.not_mem_nil⟩
    · rw [shape]
      exact ⟨by omega, trivial, trivial⟩
    · rw [shape]
      exact List.Perm.refl _
  | @insert nodes nodes' keys fuel t r isduped v built length fresh inserted ih =>
    obtain ⟨s, S⟩ := ih
    obtain ⟨zeroed, shape⟩ := S.patricia.zalloc fresh
    rcases S.patricia.step (v := v) fresh (Nat.lt_succ_self s.depth) with ⟨same, returned⟩
      | ⟨i, b, after, s', low, high, differ, returned, grew⟩
    · cases rnInsert_unique inserted returned
      refine ⟨s, zeroed, ?_, ?_, S.length⟩
      · rw [shape]
        exact S.within
      · rw [shape]
        exact S.leaves
    · cases rnInsert_unique inserted returned
      have high' := grew.high
      rw [length] at high high'
      refine ⟨s', grew.patricia, ?_, ?_, ?_⟩
      · rw [grew.shape, shape]
        exact Trie.grow_within _ S.within (by omega)
      · rw [grew.shape, shape]
        exact (Trie.grow_keys _).trans (S.leaves.cons _)
      · intro k member
        rcases List.mem_cons.mp member with rfl | old
        · exact ⟨length, by omega⟩
        · exact S.length k old

structure Tidy (T : Tables) (base off : Nat) (len : UInt8) (nodes : Nat → RadixNode)
    (keys : List (Nat × Caddr)) : Prop where
  top : (nodes (base + sizeofRadixNode)).p = base + sizeofRadixNode
  branches : ∀ a, Below nodes (base + sizeofRadixNode) a → 0 ≤ (nodes a).b →
    ∃ u, (nodes a).node? = some u ∧ Branches nodes off a u
  leaves : ∀ c, LeafBelow nodes (base + sizeofRadixNode) c ↔ c = base ∨
    c = base + 2 * sizeofRadixNode ∨ ∃ v, (c, v) ∈ keys
  own : ∀ k ∈ keys, keyOf nodes k.1 = k.2.bytes ∧
    (∃ fuel, rnSearch fuel nodes k.2 (base + sizeofRadixNode) = some k.1) ∧
    ∀ t tt, ∃ fuel, rnInsert fuel nodes k.2 (base + sizeofRadixNode) t tt = some (k.1, true, nodes)
  again : ∀ v : Caddr, v 0 = len → ∀ c, LeafBelow nodes (base + sizeofRadixNode) c →
    (∀ i, off ≤ i → i < len.toNat → v i = keyOf nodes c i) → ∀ t tt, ∃ fuel c',
      rnInsert fuel nodes v (base + sizeofRadixNode) t tt = some (c', true, nodes) ∧
        (off < len.toNat → c' = c)
  new : ∀ v : Caddr, v 0 = len → (∀ c, LeafBelow nodes (base + sizeofRadixNode) c →
    ∃ i, off ≤ i ∧ i < len.toNat ∧ v i ≠ keyOf nodes c i) →
      ∀ t, FreshPair nodes (base + sizeofRadixNode) t → ∃ fuel nodes',
      rnInsert fuel (zalloc nodes t) v (base + sizeofRadixNode) t (t + sizeofRadixNode) =
        some (t, false, nodes')

section Stored

variable (S : Stored T base off len nodes keys s)
include S

theorem Stored.below {c : Nat} :
    LeafBelow nodes (base + sizeofRadixNode) c ↔ leafKey nodes c ∈ stored T base keys := by
  have holds := S.patricia.stands.holds
  rw [← S.patricia.stands.root, ← S.leaves.mem_iff]
  constructor
  · exact below_key holds
  · exact fun member => (key_below holds member).1

theorem Stored.key {e : LeafKey} (member : e ∈ stored T base keys) :
    LeafBelow nodes (base + sizeofRadixNode) e.1 ∧ keyOf nodes e.1 = e.2 := by
  rw [← S.leaves.mem_iff] at member
  rw [← S.patricia.stands.root]
  exact key_below S.patricia.stands.holds member

theorem Stored.find {e : LeafKey} (member : e ∈ stored T base keys) (inside : off < len.toNat)
    (same : ∀ i, off ≤ i → i < len.toNat → v i = e.2 i) :
    s.leafOf nodes v = e.1 ∧ keyOf nodes (s.leafOf nodes v) = e.2 := by
  have bound : max (8 * len.toNat) (8 * off + 1) = 8 * len.toNat := by omega
  have within := S.within
  rw [bound] at within
  have found := S.patricia.sound.find_agree (Nat.le_refl _) within (S.leaves.mem_iff.mpr member)
    (bytes_eq_iff.mp same)
  rw [find_shape S.patricia.indexed] at found
  obtain ⟨_, key⟩ := S.key member
  have at_leaf : s.leafOf nodes v = e.1 := congrArg Prod.fst found
  rw [at_leaf]
  exact ⟨rfl, key⟩

theorem Stored.tidy (short : 8 * off < 2^15) : Tidy T base off len nodes keys := by
  have P := S.patricia
  have holds := P.stands.holds
  have root := P.stands.root
  have byte := len.toNat_lt
  constructor
  · have parent := root_parent holds
    rw [root] at parent
    exact parent
  · intro a below inner
    rw [← root] at below
    exact branches holds P.sound P.stands.low (S.within.mono (by omega)) below inner
  · intro c
    rw [S.below, stored]
    simp only [List.mem_append, List.mem_map, List.mem_cons, List.not_mem_nil, or_false]
    constructor
    · rintro (⟨k, member, same⟩ | same | same)
      · have here : k.1 = c := congrArg Prod.fst same
        exact .inr (.inr ⟨k.2, here ▸ member⟩)
      · exact .inl (congrArg Prod.fst same)
      · exact .inr (.inl (congrArg Prod.fst same))
    · have key : ∀ e ∈ stored T base keys, leafKey nodes e.1 = e :=
        fun e member => Prod.ext rfl (S.key member).2
      rintro (rfl | rfl | ⟨v, member⟩)
      · exact .inr (.inl (key _ (List.mem_append_right _ List.mem_cons_self)))
      · exact .inr (.inr (key _ (List.mem_append_right _ (List.mem_cons_of_mem _ List.mem_cons_self))))
      · exact .inl ⟨(c, v), member,
          (key (c, v.bytes) (List.mem_append_left _ (List.mem_map_of_mem member))).symm⟩
  · intro k member
    obtain ⟨_, inside⟩ := S.length k member
    have isStored : (k.1, k.2.bytes) ∈ stored T base keys :=
      List.mem_append_left _ (List.mem_map_of_mem member)
    obtain ⟨found, key⟩ := S.find (v := k.2) isStored inside fun _ _ _ => rfl
    refine ⟨(S.key isStored).2, ⟨s.depth + 1, ?_⟩, fun t tt => ⟨s.depth + 1, ?_⟩⟩
    · rw [P.search (Nat.lt_succ_self _), found]
    · rw [P.insert_same (Nat.lt_succ_self _) (fun i _ _ => by rw [key]), found]
  · intro v length c leaf same t tt
    have isStored := S.below.mp leaf
    by_cases inside : off < len.toNat
    · obtain ⟨found, key⟩ := S.find (v := v) isStored inside same
      refine ⟨s.depth + 1, c, ?_, fun _ => rfl⟩
      rw [P.insert_same (Nat.lt_succ_self _) (fun i low high => by
        rw [key]; exact same i low (length ▸ high)), found]
      rfl
    · exact ⟨s.depth + 1, _, P.insert_same (Nat.lt_succ_self _)
        (fun i low high => by rw [length] at high; omega), fun less => absurd less inside⟩
  · intro v length others t fresh
    obtain ⟨zeroed, shape⟩ := P.zalloc fresh
    rcases P.step (v := v) fresh (Nat.lt_succ_self s.depth) with ⟨same, -⟩
      | ⟨i, b, after, s', low, high, differ, returned, grew⟩
    · have found := find_shape (v := v) zeroed.indexed
      rw [shape] at found
      have isStored := S.leaves.mem_iff.mp (Trie.find_mem (bitAt v) (s.shape nodes))
      rw [found] at isStored
      obtain ⟨leaf, key⟩ := S.key isStored
      obtain ⟨i, low, high, differ⟩ := others _ leaf
      rw [key] at differ
      exact absurd (same i low (length ▸ high)) differ
    · exact ⟨_, after, returned⟩

end Stored

/-- The tree that `rn_inithead` and calls of `rn_insert` make, for keys of one length that are
    compared from the byte `off` on. -/
theorem rnInsert_patricia (nonzero : base ≠ 0) (short : 8 * off < 2^15) (zeros : T.zeros off = 0)
    (ones : T.ones off = 0xff)
    (built : Built T base off len nodes keys) : Tidy T base off len nodes keys := by
  obtain ⟨s, S⟩ := built.stored nonzero short zeros ones
  exact S.tidy short

def bare : Tables :=
  ⟨⟨fun _ => RadixNode.blank, fun _ => ⟨0, ⟨false, false, false⟩, 0, .leaf 0, 0⟩, ⟨10, fun _ => 0⟩,
    ⟨26, fun _ => 0xff⟩⟩,
    0, 16, fun _ => 0, 0, []⟩

def planted (off : Nat) : Nat → RadixNode :=
  match rnInsert 4 (zalloc (rnInithead bare 2000 off).nodes 3000) (sockaddr 10 0 0 0) 2024 3000 3024 with
  | some (_, _, nodes) => nodes
  | none => bare.nodes

theorem planted_inserted :
    rnInsert 4 (zalloc (rnInithead bare 2000 32).nodes 3000)
    (sockaddr 10 0 0 0) 2024 3000 3024 = some (3000, false, planted 32) ∧
      rnInsert 4 (zalloc (rnInithead bare 2000 4).nodes 3000)
      (sockaddr 10 0 0 0) 2024 3000 3024 = some (3000, false, planted 4) :=
  ⟨rfl, rfl⟩

theorem below_mem {q c : Nat} (holds : Holds nodes q s) (below : Below nodes s.root c) : c ∈ s.addrs := by
  induction s generalizing q with
  | leaf chain =>
    rw [below_leaf holds below]
    exact headD_mem holds.1
  | node a l r ihl ihr =>
    rcases (below_node holds).mp below with rfl | left | right
    · exact List.mem_cons_self
    · exact List.mem_cons_of_mem _ (List.mem_append_left _ (ihl holds.2.2.2.2.1 left))
    · exact List.mem_cons_of_mem _ (List.mem_append_right _ (ihr holds.2.2.2.2.2 right))

theorem planted_built : Built bare 2000 4 16 (planted 32) [(3000, sockaddr 10 0 0 0)] := by
  have fresh : FreshPair (rnInithead bare 2000 32).nodes 2024 3000 := by
    refine ⟨by decide, fun c below => ?_⟩
    have holds : Holds (rnInithead bare 2000 32).nodes 2024 (headTree 2000) :=
      (rnInithead_stands (by decide) (by decide)).1.holds
    have member : c ∈ [2024, 2000, 2048] := below_mem holds below
    simp only [List.mem_cons, List.not_mem_nil, or_false] at member
    unfold sizeofRadixNode
    omega
  have built := Built.insert (sockaddr 10 0 0 0) (@Built.init bare 2000 4 16) rfl fresh planted_inserted.1
  exact built

theorem planted_tidy : Tidy bare 2000 4 16 (planted 32) [(3000, sockaddr 10 0 0 0)] :=
  @rnInsert_patricia bare 2000 4 16 _ _ (by decide) (by decide) rfl rfl planted_built

def port80 : Caddr := ⟨500, fun i => [16, 2, 0, 80, 10, 0, 0, 0].getD i 0⟩

/-- Keys below one node differ before the offset; where the offset is not one of whole bytes, the
    index of a child is less; and a key that differs from another one only before the offset is not
    put in. -/
theorem before_the_offset :
    (LeafBelow (planted 32) 3024 2000 ∧ LeafBelow (planted 32) 3024 3000 ∧ 3 < (planted 32 3024).b ∧
      bitAt (keyOf (planted 32) 2000) 3 ≠ bitAt (keyOf (planted 32) 3000) 3) ∧
    (Child (planted 4) 2024 3024 ∧ 0 ≤ (planted 4 3024).b ∧ (planted 4 3024).b < (planted 4 2024).b) ∧
    port80 3 ≠ sockaddr 10 0 0 0 3 ∧
      (rnInsert 4 (zalloc (planted 32) 3100) port80 2024 3100 3124).map (fun r => (r.1, r.2.1)) =
        some (3000, true) := by
  have sides : (planted 32 3024).node? = some ⟨4, 2000, 3000⟩ ∧
    (planted 4 2024).node? = some ⟨0, 3024, 2048⟩ := ⟨rfl, rfl⟩
  refine ⟨⟨⟨?_, by decide +kernel⟩, ⟨?_, by decide +kernel⟩, by decide +kernel, by decide +kernel⟩,
    ⟨⟨by decide +kernel, _, sides.2, .inl rfl⟩, by decide +kernel, by decide +kernel⟩, by
      decide, by decide +kernel⟩
  · exact .single ⟨by decide +kernel, _, sides.1, .inl rfl⟩
  · exact .single ⟨by decide +kernel, _, sides.1, .inr rfl⟩

end Embryo.Radix
