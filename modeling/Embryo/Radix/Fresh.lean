import Embryo.Radix.Order

namespace Embryo.Radix

open Embryo.Machine

structure Unlinked (nodes : Nat → RadixNode) (t : Nat) : Prop where
  inner : ∀ a u, (nodes a).node? = some u → u.l ≠ t ∧ u.r ≠ t
  chain : ∀ a u, (nodes a).leaf? = some u → u.dupedkey ≠ t

def Keyed (nodes : Nat → RadixNode) (t : Nat) (v : Caddr) : Prop := ∃ u, (nodes t).leaf? = some u ∧ u.key = v

variable {nodes nodes' : Nat → RadixNode} {t p x b first second fuel treetop : Nat} {v cp : Caddr}
  {T T' : Tables}

theorem Unlinked.child (unlinked : Unlinked nodes t) {a c : Nat} (down : child nodes v a = some c) :
    c ≠ t := by
  unfold Radix.child at down
  obtain ⟨u, isNode, rfl⟩ := Option.map_eq_some_iff.mp down
  split
  · exact (unlinked.inner a u isNode).2
  · exact (unlinked.inner a u isNode).1

theorem Unlinked.search (unlinked : Unlinked nodes t) (top : treetop ≠ t) {rn : Nat}
    (found : rnSearch fuel nodes v treetop = some rn) :
    rn ≠ t := by
  refine loop_invariant (· ≠ t) (· ≠ t) ?_ ?_ found top
  · intro a next again _
    unfold descendPass at again
    split at again
    · cases again
    · split at again
      · cases again
      · rename_i u isNode
        cases again
        split
        · exact (unlinked.inner a u isNode).2
        · exact (unlinked.inner a u isNode).1
  · intro a result leave here
    unfold descendPass at leave
    split at leave
    · cases leave
      exact here
    · split at leave <;> cases leave

theorem Unlinked.place (unlinked : Unlinked nodes t)
    (placed : loop (placePass nodes v b) fuel treetop = some (p, x)) : x ≠ t := by
  refine loop_invariant (fun _ => True) (fun r : Nat × Nat => r.2 ≠ t) (fun _ _ _ _ => trivial)
    ?_ placed trivial
  intro a result leave _
  unfold placePass at leave
  split at leave
  · cases leave
  · rename_i c down
    split at leave
    · cases leave
      exact unlinked.child down
    · cases leave

theorem Unlinked.update (unlinked : Unlinked nodes t) {a : Nat} {n : RadixNode}
    (inner : ∀ u, n.node? = some u → u.l ≠ t ∧ u.r ≠ t) (chain : ∀ u, n.leaf? = some u → u.dupedkey ≠ t) :
    Unlinked (Function.update nodes a n) t := by
  constructor
  · intro c u isNode
    by_cases here : c = a
    · rw [here, Function.update_self] at isNode
      exact inner u isNode
    · rw [Function.update_of_ne here] at isNode
      exact unlinked.inner c u isNode
  · intro c u isLeaf
    by_cases here : c = a
    · rw [here, Function.update_self] at isLeaf
      exact chain u isLeaf
    · rw [Function.update_of_ne here] at isLeaf
      exact unlinked.chain c u isLeaf

theorem Unlinked.same (unlinked : Unlinked nodes t) {a : Nat} {n : RadixNode} (same : n.u = (nodes a).u) :
    Unlinked (Function.update nodes a n) t := by
  apply unlinked.update
  · intro u isNode
    rw [RadixNode.node?, same] at isNode
    exact unlinked.inner a u isNode
  · intro u isLeaf
    rw [RadixNode.leaf?, same] at isLeaf
    exact unlinked.chain a u isLeaf

theorem Unlinked.alone (unlinked : Unlinked nodes t) (nonzero : t ≠ 0) {a : Nat} {n : RadixNode}
    {key : Caddr} {mask : Option Caddr}
    (isLeaf : n.u = .leaf ⟨key, mask, 0⟩) : Unlinked (Function.update nodes a n) t := by
  apply unlinked.update
  · intro u isNode
    rw [RadixNode.node?, isLeaf] at isNode
    cases isNode
  · intro u held
    rw [RadixNode.leaf?, isLeaf] at held
    cases held
    exact nonzero.symm

theorem Unlinked.zalloc (unlinked : Unlinked nodes t) (nonzero : t ≠ 0) (pair : Nat) :
    Unlinked (zalloc nodes pair) t := by
  exact (unlinked.alone nonzero rfl).alone nonzero rfl

theorem Unlinked.inithead (unlinked : Unlinked T.nodes t) (nonzero : t ≠ 0) {base off : Nat}
    (away : t ∉ headNodes base) :
    Unlinked (rnInithead T base off).nodes t := by
  simp only [headNodes, List.mem_cons, List.not_mem_nil, or_false, not_or] at away
  obtain ⟨left, -, right⟩ := away
  have top : Unlinked (Function.update T.nodes (base + sizeofRadixNode)
      ⟨0, base + sizeofRadixNode, off, 0x80 >>> UInt8.ofNat (off % 8), ⟨true, true, false⟩,
          .node ⟨off / 8, base, base + 2 * sizeofRadixNode⟩⟩) t := by
    apply unlinked.update
    · intro u isNode
      cases isNode
      exact ⟨Ne.symm left, Ne.symm right⟩
    · intro u isLeaf
      cases isLeaf
  exact (top.alone nonzero rfl).alone nonzero rfl

theorem Unlinked.setLeaf (unlinked : Unlinked nodes t) {a : Nat} {u u' : RnLeaf}
    (isLeaf : (nodes a).leaf? = some u)
    (same : u'.dupedkey = u.dupedkey) : Unlinked (setLeaf nodes a u') t := by
  apply unlinked.update
  · intro w isNode
    cases isNode
  · intro w held
    cases held
    rw [same]
    exact unlinked.chain a u isLeaf

theorem update_leaf {a : Nat} {n : RadixNode} (same : a = t → n.leaf? = (nodes t).leaf?) :
    (Function.update nodes a n t).leaf? = (nodes t).leaf? := by
  by_cases here : t = a
  · rw [here, Function.update_self, same here.symm, here]
  · rw [Function.update_of_ne here]

theorem attach_unlinked (unlinked : Unlinked nodes t) (leafT : (nodes t).node? = none)
    (notFirst : first ≠ t) (notSecond : second ≠ t)
    (notX : x ≠ t) (attached : attach nodes v b first second p x = some nodes') :
    (nodes' t).leaf? = (nodes t).leaf? ∧ Unlinked nodes' t := by
  unfold attach at attached
  split at attached
  · cases attached
  rename_i leaf isLeaf
  dsimp only at attached
  have placed : Unlinked (Function.update nodes first { nodes first with
      b := -1, p := second, flags := ⟨false, true, false⟩, u := .leaf { leaf with key := v } }) t := by
    apply unlinked.update
    · intro u isNode
      cases isNode
    · intro u held
      cases held
      exact unlinked.chain first leaf isLeaf
  have away : (Function.update nodes first { nodes first with
      b := -1, p := second, flags := ⟨false, true, false⟩, u := .leaf { leaf with key := v } }) t = nodes t :=
    Function.update_of_ne notFirst.symm _ _
  generalize Function.update nodes first { nodes first with
      b := -1, p := second, flags := ⟨false, true, false⟩, u :=
        .leaf { leaf with key := v } } = placedNodes at attached placed away
  split at attached
  · cases attached
  rename_i set stored
  unfold setChild at stored
  obtain ⟨u, isNode, rfl⟩ := Option.map_eq_some_iff.mp stored
  have notP : p ≠ t := by
    rintro rfl
    rw [away, leafT] at isNode
    cases isNode
  cases attached
  have linked : Unlinked (Function.update placedNodes p { placedNodes p with
      u := .node (if v u.off &&& (placedNodes p).bmask ≠ 0 then { u with r := second }
          else { u with l := second }) }) t := by
    apply placed.update
    · intro w held
      have sides := placed.inner p u isNode
      cases held
      split
      · exact ⟨sides.1, notSecond⟩
      · exact ⟨notSecond, sides.2⟩
    · intro w held
      cases held
  constructor
  · rw [Function.update_of_ne notSecond.symm, Function.update_of_ne notX.symm,
      Function.update_of_ne notP.symm, away]
  · apply Unlinked.update
    · exact linked.same rfl
    · intro w held
      cases held
      split
      · exact ⟨notX, notFirst⟩
      · exact ⟨notFirst, notX⟩
    · intro w held
      cases held

theorem rnInsert_unlinked {r : Nat} {isduped : Bool} (unlinked : Unlinked nodes t)
    (leafT : (nodes t).node? = none) (notFirst : first ≠ t) (notSecond : second ≠ t)
    (inserted : rnInsert fuel nodes v treetop first second = some (r, isduped, nodes')) :
    (nodes' t).leaf? = (nodes t).leaf? ∧ Unlinked nodes' t := by
  unfold rnInsert at inserted
  split at inserted
  · split at inserted
    · cases inserted
    · split at inserted
      · cases inserted
        exact ⟨rfl, unlinked⟩
      · dsimp only at inserted
        split at inserted
        · cases inserted
        · rename_i p x placed
          split at inserted
          · cases inserted
          · rename_i after attached
            cases inserted
            have notX := unlinked.place placed
            exact attach_unlinked unlinked leafT notFirst notSecond notX attached
  · cases inserted

theorem rnAddmask_unlinked {netmask : Caddr} {search : Bool} {skip pair rnm : Nat}
    (unlinked : Unlinked T.nodes t) (leafT : (T.nodes t).node? = none) (nonzero : t ≠ 0)
    (notPair : pair ≠ t) (notNext : pair + sizeofRadixNode ≠ t)
    (added : rnAddmask fuel T netmask search skip pair = some (rnm, T')) :
    (T'.nodes t).leaf? = (T.nodes t).leaf? ∧ Unlinked T'.nodes t := by
  unfold rnAddmask at added
  generalize (if skip = 0 then 1 else skip) = skip at added
  dsimp only at added
  split at added
  · cases added
    exact ⟨rfl, unlinked⟩
  split at added
  · cases added
    exact ⟨rfl, unlinked⟩
  split at added
  · cases added
  split at added
  · cases added
  split at added
  · cases added
    exact ⟨rfl, unlinked⟩
  split at added
  · cases added
    exact ⟨rfl, unlinked⟩
  split at added
  · cases added
    exact ⟨rfl, unlinked⟩
  have zeroed := unlinked.zalloc nonzero pair
  have away : zalloc T.nodes pair t = T.nodes t := zalloc_others notPair.symm notNext.symm
  split at added
  · cases added
  · rename_i r nodes inserted
    cases added
    obtain ⟨same, kept⟩ := rnInsert_unlinked zeroed (by rw [away]; exact leafT) notPair notNext inserted
    rw [away] at same
    exact ⟨same, kept⟩
  · rename_i r nodes inserted
    cases added
    obtain ⟨same, kept⟩ := rnInsert_unlinked zeroed (by rw [away]; exact leafT) notPair notNext inserted
    rw [away] at same
    refine ⟨?_, kept.same rfl⟩
    dsimp only
    rw [update_leaf (fun here => by rw [← here]; rfl), same]

theorem attach_keyed (apart : second ≠ first) (notX : x ≠ first)
    (attached : attach nodes v b first second p x = some nodes') :
    Keyed nodes' first v := by
  unfold attach at attached
  split at attached
  · cases attached
  rename_i leaf isLeaf
  dsimp only at attached
  split at attached
  · cases attached
  rename_i set stored
  cases attached
  unfold setChild at stored
  obtain ⟨u, isNode, rfl⟩ := Option.map_eq_some_iff.mp stored
  have notP : p ≠ first := by
    rintro rfl
    rw [Function.update_self] at isNode
    cases isNode
  refine ⟨{ leaf with key := v }, ?_, rfl⟩
  rw [Function.update_of_ne apart.symm, Function.update_of_ne notX.symm,
    Function.update_of_ne notP.symm, Function.update_self]
  rfl

theorem Keyed.listing (keyed : Keyed T.nodes t v) (listing : Listing T T') : Keyed T'.nodes t v := by
  obtain ⟨u, isLeaf, key⟩ := keyed
  exact ⟨u, (listing.links.leaf? t).trans isLeaf, key⟩

theorem listMask_keyed {top rn : Nat} {netmask : Caddr} (keyed : Keyed T.nodes t v)
    (listed : listMask fuel T t p top netmask b = some (.done rn T')) : Keyed T'.nodes t v := by
  unfold listMask at listed
  split at listed
  · cases listed
  split at listed
  · cases listed
  · cases listed
    exact keyed
  · cases listed
  · cases listed
    exact keyed.listing ⟨.masklist T.nodes t _, rfl⟩
  · split at listed
    · cases listed
    · rename_i made
      cases listed
      exact (keyed.listing (rnNewRadixMask_listing made)).listing (Rmp.set_listing _ _ _)

theorem routed_keyed {top rn : Nat} {isduped : Bool} {netmask : Option (Caddr × RadixNode)}
    (keyed : Keyed T.nodes t v)
    (route : routed fuel T t p top isduped netmask = some (.done rn T')) : Keyed T'.nodes t v := by
  unfold routed at route
  split at route
  · cases route
  rename_i nodes set
  have masked : Keyed nodes t v := by
    split at set
    · cases set
      exact keyed
    · unfold setMask at set
      obtain ⟨leaf, isLeaf, rfl⟩ := Option.map_eq_some_iff.mp set
      obtain ⟨u, held, key⟩ := keyed
      rw [held] at isLeaf
      cases isLeaf
      rw [Keyed, Function.update_self]
      exact ⟨_, rfl, key⟩
  split at route
  · cases route
  rename_i T₁ promoted
  have moved : Keyed T₁.nodes t v := by
    have started : Keyed ({ T with nodes } : Tables).nodes t v := masked
    split at promoted
    · cases promoted
      exact started
    · exact started.listing (promote_listing promoted)
  split at route
  · cases route
    exact moved
  · dsimp only at route
    split at route
    · cases route
      exact moved
    · exact listMask_keyed moved route

theorem enchain_keyed {head tt next rn : Nat} (notBefore : tt ≠ t)
    (chained : enchain nodes v head tt next t = some (rn, nodes')) :
    Keyed nodes' t v := by
  unfold enchain at chained
  split at chained
  · rename_i new before isNew isBefore
    dsimp only at chained
    split at chained
    · split at chained
      · cases chained
      · cases chained
        refine ⟨{ new with dupedkey := head, key := v }, ?_, rfl⟩
        rw [Function.update_self]
        rfl
    · cases chained
      refine ⟨{ new with dupedkey := before.dupedkey, key := v }, ?_, rfl⟩
      rw [Function.update_of_ne notBefore.symm, Function.update_self]
      rfl
  · cases chained

theorem rnInsert_found {r : Nat}
    (inserted : rnInsert fuel nodes v treetop first second = some (r, true, nodes')) :
    rnSearch fuel nodes v treetop = some r ∧ nodes' = nodes := by
  unfold rnInsert at inserted
  split at inserted
  · rename_i top found isTop searched
    split at inserted
    · cases inserted
    · split at inserted
      · cases inserted
        exact ⟨searched, rfl⟩
      · dsimp only at inserted
        split at inserted
        · cases inserted
        · split at inserted <;> cases inserted
  · cases inserted

theorem rnInsert_keyed {r : Nat} (unlinked : Unlinked nodes first) (apart : second ≠ first)
    (inserted : rnInsert fuel nodes v treetop first second = some (r, false, nodes')) :
    r = first ∧ Keyed nodes' first v := by
  unfold rnInsert at inserted
  split at inserted
  · split at inserted
    · cases inserted
    · split at inserted
      · cases inserted
      · dsimp only at inserted
        split at inserted
        · cases inserted
        · rename_i p x placed
          split at inserted
          · cases inserted
          · rename_i after attached
            cases inserted
            have notX := unlinked.place placed
            exact ⟨rfl, attach_keyed apart notX attached⟩
  · cases inserted

theorem addrouteMasked_keyed {rn : Nat} {netmask : Option (Caddr × RadixNode)}
    (unlinked : Unlinked T.nodes first) (notTop : treetop ≠ first) (apart : second ≠ first)
    (added : addrouteMasked fuel T v treetop first second netmask = some (.done rn T'))
    (returned : rn ≠ 0) : Keyed T'.nodes first v := by
  unfold addrouteMasked at added
  split at added
  · cases added
  · rename_i r nodes inserted
    obtain ⟨rfl, keyed⟩ := rnInsert_keyed unlinked apart inserted
    exact routed_keyed (T := { T with nodes }) keyed added
  · rename_i head nodes inserted
    obtain ⟨searched, rfl⟩ := rnInsert_found inserted
    have notHead := unlinked.search notTop searched
    split at added
    · cases added
    · cases added
      exact absurd rfl returned
    · cases added
    · rename_i tt next walked
      have notBefore : tt ≠ first := by
        have ends : ∀ spot : Spot, loop (chainPass T.nodes (netmask.map Prod.fst)
          ((netmask.map fun n => n.2.b).getD 0)) fuel (head, head) = some spot →
            match spot with
            | .between tt _ => tt ≠ first
            | _ => True := by
          intro spot left
          refine loop_invariant (fun s : Nat × Nat => s.1 ≠ first ∧ s.2 ≠ first) (fun spot => match spot with
            | .between tt _ => tt ≠ first
            | _ => True) ?_ ?_ left ⟨notHead, notHead⟩
          · rintro ⟨tt, a⟩ next again ⟨_, here⟩
            unfold chainPass at again
            dsimp only at again
            split at again
            · cases again
            split at again
            · cases again
            rename_i leaf isLeaf
            split at again
            · cases again
            split at again
            · split at again
              · cases again
              split at again
              · cases again
              · cases again
                exact ⟨here, unlinked.chain a leaf isLeaf⟩
            · cases again
          · rintro ⟨tt, a⟩ spot leave ⟨before, _⟩
            unfold chainPass at leave
            dsimp only at leave
            split at leave
            · cases leave
              exact before
            split at leave
            · cases leave
            split at leave
            · cases leave
              exact True.intro
            split at leave
            · split at leave
              · cases leave
                exact True.intro
              split at leave
              · cases leave
                exact before
              · cases leave
            · cases leave
              exact True.intro
        exact ends _ walked
      split at added
      · cases added
      · rename_i head' nodes' chained
        exact routed_keyed (T := { T with nodes := nodes' }) (enchain_keyed notBefore chained) added

theorem rnAddroute_keyed {rn pair : Nat} {m : Option Caddr} (unlinked : Unlinked T.nodes t)
    (leafT : (T.nodes t).node? = none) (nonzero : t ≠ 0) (notTop : treetop ≠ t) (notPair : pair ≠ t)
    (notNext : pair + sizeofRadixNode ≠ t) (returned : rn ≠ 0)
    (added : rnAddroute fuel T v m treetop t (t + sizeofRadixNode) pair = some (.done rn T')) :
    Keyed T'.nodes t v := by
  have apart : t + sizeofRadixNode ≠ t := by simp [sizeofRadixNode]
  unfold rnAddroute at added
  split at added
  · exact addrouteMasked_keyed unlinked notTop apart added returned
  · split at added
    · cases added
    split at added
    · cases added
    rename_i rnm T₁ interned
    split at added
    · cases added
      exact absurd rfl returned
    split at added
    · cases added
    · have kept := (rnAddmask_unlinked unlinked leafT nonzero notPair notNext interned).2
      exact addrouteMasked_keyed kept notTop apart added returned

end Embryo.Radix
