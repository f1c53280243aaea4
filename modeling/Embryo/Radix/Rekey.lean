import Embryo.Machine.Lockstep
import Embryo.Radix.Match

namespace Embryo.Radix

open Embryo.Machine

/-- Two nodes that differ at most in where the key of a leaf lies, and in its bytes behind the first `n`. -/
structure Near (n : Nat) (x y : RadixNode) : Prop where
  fields : y.masklist = x.masklist ∧ y.p = x.p ∧ y.b = x.b ∧ y.bmask = x.bmask ∧ y.flags = x.flags
  node : y.node? = x.node?
  leaf : ∀ u, x.leaf? = some u → ∃ u', y.leaf? = some u' ∧ u'.mask = u.mask ∧ u'.dupedkey = u.dupedkey ∧
    ∀ i < n, u'.key i = u.key i

def AllNear (n : Nat) (nodes nodes' : Nat → RadixNode) : Prop := ∀ a, Near n (nodes a) (nodes' a)

variable {n : Nat} {nodes nodes' : Nat → RadixNode} {v : Caddr} {s s' : Matching}

theorem Near.leaf_none {x y : RadixNode} (near : Near n x y) (none : x.leaf? = Option.none) :
    y.leaf? = Option.none := by
  have same := near.node
  rw [RadixNode.leaf?] at none ⊢
  rw [RadixNode.node?, RadixNode.node?] at same
  cases held : x.u with
  | leaf u =>
    rw [held] at none
    cases none
  | node u =>
    rw [held] at same
    cases held' : y.u with
    | leaf u' =>
      rw [held'] at same
      cases same
    | node u' => rfl

theorem AllNear.search (near : AllNear n nodes nodes') (right : Nat → UInt8 → Bool) :
    descendPass nodes' right = descendPass nodes right := by
  funext rn
  obtain ⟨-, -, b, bmask, -⟩ := (near rn).fields
  simp only [descendPass, b, bmask, (near rn).node]

theorem satisfies_near {ones : Caddr} {u u' : RnLeaf} {skip : Nat} (covered : (v 0).toNat ≤ n)
    (positive : 0 < n)
    (mask : u'.mask = u.mask) (duped : u'.dupedkey = u.dupedkey) (key : ∀ i < n, u'.key i = u.key i) :
    (rnSatisfiesLeaf ones v u' skip).1 = (rnSatisfiesLeaf ones v u skip).1 ∧
      (rnSatisfiesLeaf ones v u' skip).2.mask = (rnSatisfiesLeaf ones v u skip).2.mask ∧
      (rnSatisfiesLeaf ones v u' skip).2.dupedkey = (rnSatisfiesLeaf ones v u skip).2.dupedkey ∧
      (rnSatisfiesLeaf ones v u' skip).2.key = u'.key ∧ (rnSatisfiesLeaf ones v u skip).2.key = u.key := by
  have first := key 0 positive
  have alike : ∀ (len : Nat) (cp3 : UInt8), len ≤ (v 0).toNat →
      ((List.range' skip (len - skip)).all fun i => decide ((v i ^^^ u'.key i) &&& cp3 = 0)) =
        (List.range' skip (len - skip)).all fun i => decide ((v i ^^^ u.key i) &&& cp3 = 0) := by
    intro len cp3 short
    apply Bool.eq_iff_iff.mpr
    simp only [List.all_eq_true, List.mem_range'_1, decide_eq_true_eq]
    constructor <;> intro all i inside
    · rw [← key i (by omega)]
      exact all i inside
    · rw [key i (by omega)]
      exact all i inside
  cases held : u.mask with
  | none =>
    rw [held] at mask
    simp only [rnSatisfiesLeaf, held, mask, first]
    exact ⟨alike _ _ (Nat.min_le_left _ _), trivial, duped, trivial, trivial⟩
  | some m =>
    rw [held] at mask
    simp only [rnSatisfiesLeaf, held, mask, first]
    exact ⟨alike _ _ ((Nat.min_le_left _ _).trans (Nat.min_le_left _ _)), trivial, duped, trivial, trivial⟩

theorem AllNear.setLeaf (near : AllNear n nodes nodes') (rn : Nat) {u u' : RnLeaf} (mask : u'.mask = u.mask)
    (duped : u'.dupedkey = u.dupedkey) (key : ∀ i < n, u'.key i = u.key i) :
    AllNear n (setLeaf nodes rn u) (setLeaf nodes' rn u') := by
  intro a
  unfold Radix.setLeaf
  by_cases here : a = rn
  · rw [here, Function.update_self, Function.update_self]
    refine ⟨(near rn).fields, rfl, ?_⟩
    intro w isLeaf
    cases isLeaf
    exact ⟨u', rfl, mask, duped, key⟩
  · rw [Function.update_of_ne here, Function.update_of_ne here]
    exact near a

def Beside (n : Nat) (s s' : Matching) : Prop :=
  AllNear n s.nodes s'.nodes ∧ s'.rn = s.rn ∧ s'.matchedOff = s.matchedOff

def Agree (n : Nat) (r r' : Matched × Matching) : Prop := r'.1 = r.1 ∧ Beside n r.2 r'.2

theorem dupedPass_together {R R' : RadixStore} {rnB : UInt16} (ones : R'.ones = R.ones)
    (covered : (v 0).toNat ≤ n) (positive : 0 < n)
    (beside : Beside n s s') : Together (Beside n) (Agree n) (dupedPass R v rnB s)
    (dupedPass R' v rnB s') := by
  obtain ⟨near, rn, off⟩ := beside
  unfold dupedPass
  rw [rn]
  split
  · exact ⟨rfl, near, rn, off⟩
  · obtain ⟨-, -, b, -, flags⟩ := (near s.rn).fields
    cases isLeaf : (s.nodes s.rn).leaf? with
    | none =>
      rw [(near s.rn).leaf_none isLeaf]
      exact True.intro
    | some u =>
      obtain ⟨u', isLeaf', mask, duped, key⟩ := (near s.rn).leaf u isLeaf
      simp only [isLeaf', flags, b, duped, ones, off]
      split
      · split
        · exact ⟨rfl, near, rn, off⟩
        · exact ⟨near, rfl, rfl⟩
      · obtain ⟨result, mask', duped', key₁, key₂⟩ :=
          @satisfies_near n v R.ones u u' s.matchedOff covered positive mask duped key
        have set : AllNear n (Radix.setLeaf s.nodes s.rn (rnSatisfiesLeaf R.ones v u s.matchedOff).2)
            (Radix.setLeaf s'.nodes s.rn (rnSatisfiesLeaf R.ones v u' s.matchedOff).2) := by
          apply near.setLeaf s.rn mask' duped'
          rw [key₁, key₂]
          exact key
        generalize rnSatisfiesLeaf R.ones v u s.matchedOff = first at result duped' set ⊢
        generalize rnSatisfiesLeaf R.ones v u' s.matchedOff = second at result duped' set ⊢
        obtain ⟨yes, w⟩ := first
        obtain ⟨yes', w'⟩ := second
        cases result
        cases yes with
        | true => exact ⟨rfl, set, rfl, rfl⟩
        | false => exact ⟨set, duped', rfl⟩

theorem maskedLeaf_near {fuel rn : Nat} {m : Caddr} (near : AllNear n nodes nodes') :
    maskedLeaf fuel nodes' v m rn = maskedLeaf fuel nodes v m rn := by
  have pass : maskPass nodes' m = maskPass nodes m := by
    funext rx
    unfold maskPass
    split
    · rfl
    · cases isLeaf : (nodes rx).leaf? with
      | none => rw [(near rx).leaf_none isLeaf]
      | some u =>
        obtain ⟨u', isLeaf', mask, duped, -⟩ := (near rx).leaf u isLeaf
        simp only [isLeaf', mask, duped]
  rw [maskedLeaf, rnSearchMask, near.search, pass]
  rfl

theorem masksPass_together {fuel rm : Nat} {R R' : RadixStore} {stray : Caddr → RnNode → Nat → Bool}
    {rnB : UInt16} (masks : R'.masks = R.masks) (beside : Beside n s s') :
    Together (fun t t' => Beside n t.1 t'.1 ∧ t'.2 = t.2) (Agree n)
    (masksPass fuel R stray v rnB (s, rm)) (masksPass fuel R' stray v rnB (s', rm)) := by
  obtain ⟨near, rn, off⟩ := beside
  unfold masksPass
  dsimp only
  rw [masks]
  split
  · exact ⟨rfl, near, rn, off⟩
  · split
    · split
      · exact True.intro
      · split
        · exact ⟨rfl, near, rn, off⟩
        · exact ⟨⟨near, rn, off⟩, rfl⟩
    · split
      · exact True.intro
      · rename_i mask _ _
        rw [rn, maskedLeaf_near near, (near s.rn).node, off]
        split
        · split
          · exact ⟨rfl, near, rfl, rfl⟩
          · exact ⟨⟨near, rfl, rfl⟩, rfl⟩
        · exact True.intro

theorem backPass_together {fuel : Nat} {R R' : RadixStore} {stray : Caddr → RnNode → Nat → Bool}
    {rnB : UInt16} (masks : R'.masks = R.masks)
    (beside : Beside n s s') : Together (Beside n) (Agree n) (backPass fuel R stray v rnB s)
    (backPass fuel R' stray v rnB s') := by
  obtain ⟨near, rn, off⟩ := beside
  have parent : (s'.nodes s'.rn).p = (s.nodes s.rn).p := by
    rw [rn]
    exact (near s.rn).fields.2.1
  have up : Beside n { s with rn := (s.nodes s.rn).p } { s' with rn := (s'.nodes s'.rn).p } :=
    ⟨near, parent, off⟩
  have inner := @loop_lockstep (Matching × Nat) (Matched × Matching)
    (fun t t' => Beside n t.1 t'.1 ∧ t'.2 = t.2) (Agree n) (masksPass fuel R stray v rnB)
      (masksPass fuel R' stray v rnB)
    (by
      rintro ⟨t, rm⟩ ⟨t', rm'⟩ ⟨held, same⟩
      cases same
      exact masksPass_together masks held)
    fuel ({ s with rn := (s.nodes s.rn).p }, (s.nodes (s.nodes s.rn).p).masklist)
    ({ s' with rn := (s'.nodes s'.rn).p }, (s'.nodes (s'.nodes s'.rn).p).masklist)
    ⟨up, by rw [parent]; exact (near _).fields.1⟩
  unfold backPass
  dsimp only
  rcases inner.cases with ⟨left, right⟩ | ⟨⟨found, t⟩, ⟨found', t'⟩, left, right, same, held⟩
  · rw [left, right]
    exact True.intro
  · rw [left, right]
    change found' = found at same
    subst same
    cases found' with
    | null =>
      obtain ⟨nearT, rnT, offT⟩ := held
      have parentT : (t'.nodes t'.rn).p = (t.nodes t.rn).p := by
        rw [rnT]
        exact (nearT t.rn).fields.2.1
      dsimp only
      rw [parentT, rnT]
      split
      · exact ⟨nearT, rnT, offT⟩
      · exact ⟨rfl, nearT, rnT, offT⟩
    | _ => exact ⟨rfl, held⟩

theorem matchLeaf_near {fuel off rn vlen : Nat} {R R' : RadixStore}
    {stray : Caddr → RnNode → Nat → Bool} {u u' : RnLeaf} (near : AllNear n R.nodes R'.nodes)
    (masks : R'.masks = R.masks) (ones : R'.ones = R.ones) (positive : 0 < n)
    (covered : (v 0).toNat ≤ n) (within : vlen ≤ n) (mask : u'.mask = u.mask)
    (duped : u'.dupedkey = u.dupedkey) (key : ∀ i < n, u'.key i = u.key i) :
    (matchLeaf fuel R' stray v off rn u' vlen).map Prod.fst =
      (matchLeaf fuel R stray v off rn u vlen).map Prod.fst := by
  have differ : firstDiff v u'.key off vlen = firstDiff v u.key off vlen := by
    unfold firstDiff
    apply List.find?_congr
    intro i inside
    have bounds := List.mem_range'_1.mp inside
    rw [key i (by omega)]
  unfold matchLeaf
  rw [differ]
  cases diff : firstDiff v u.key off vlen with
  | none =>
    dsimp only
    rw [duped, (near rn).fields.2.2.2.2]
    rfl
  | some matchedOff =>
    have inKey : matchedOff < n := by
      have bounds := List.mem_range'_1.mp (List.mem_of_find?_eq_some diff)
      omega
    have rnB : unmatched v u'.key matchedOff = unmatched v u.key matchedOff := by
      rw [unmatched, unmatched, key matchedOff inKey]
    dsimp only
    rw [rnB, mask, duped]
    have walk := @loop_lockstep Matching (Matched × Matching) (Beside n) (Agree n)
      (dupedPass R v (unmatched v u.key matchedOff)) (dupedPass R' v (unmatched v u.key matchedOff))
      (fun t t' held => dupedPass_together ones covered positive held) fuel
      ⟨R.nodes, if u.mask.isNone then u.dupedkey else rn, matchedOff⟩
        ⟨R'.nodes, if u.mask.isNone then u.dupedkey else rn, matchedOff⟩
      ⟨near, rfl, rfl⟩
    rcases walk.cases with ⟨left, right⟩ | ⟨⟨what, t⟩, ⟨what', t'⟩, left, right, same, held⟩
    · rw [left, right]
    · rw [left, right]
      change what' = what at same
      subst same
      cases what' with
      | null =>
        have back := @loop_lockstep Matching (Matched × Matching) (Beside n) (Agree n)
          (backPass fuel R stray v (unmatched v u.key matchedOff))
          (backPass fuel R' stray v (unmatched v u.key matchedOff))
          (fun t t' held => backPass_together masks held) fuel { t with rn := rn }
          { t' with rn := rn } ⟨held.1, rfl, held.2.2⟩
        dsimp only
        rcases back.cases with ⟨left, right⟩ | ⟨q, q', left, right, agree⟩
        · rw [left, right]
        · rw [left, right]
          exact congrArg some agree.1
      | _ => rfl

/-- What `rn_match` finds does not depend on where keys lie, as long as it looks at no more than
    their first `n` bytes. -/
theorem rnMatch_near {fuel treetop : Nat} {R R' : RadixStore} {stray : Caddr → RnNode → Nat → Bool}
    (near : AllNear n R.nodes R'.nodes)
    (masks : R'.masks = R.masks) (ones : R'.ones = R.ones) (positive : 0 < n) (covered : (v 0).toNat ≤ n)
    (short : ∀ a u m, (R.nodes a).leaf? = some u → u.mask = some m → (m 0).toNat ≤ n) :
    (rnMatch fuel R' stray v treetop).map Prod.fst = (rnMatch fuel R stray v treetop).map Prod.fst := by
  have searched : rnSearch fuel R'.nodes v treetop = rnSearch fuel R.nodes v treetop := by
    rw [rnSearch, near.search]
    rfl
  cases isTop : (R.nodes treetop).node? with
  | none => rw [rnMatch, rnMatch, (near treetop).node, isTop]
  | some top =>
    cases found : rnSearch fuel R.nodes v treetop with
    | none => rw [rnMatch, rnMatch, searched, found, (near treetop).node, isTop]
    | some rn =>
      cases isLeaf : (R.nodes rn).leaf? with
      | none =>
        rw [rnMatch, rnMatch, searched, found, (near treetop).node, isTop]
        dsimp only
        rw [isLeaf, (near rn).leaf_none isLeaf]
      | some u =>
        obtain ⟨u', isLeaf', mask, duped, key⟩ := (near rn).leaf u isLeaf
        have vlen : u'.vlen v = u.vlen v := by rw [RnLeaf.vlen, RnLeaf.vlen, mask]
        have within : u.vlen v ≤ n := by
          rw [RnLeaf.vlen]
          split
          · rename_i m held
            exact short rn u m isLeaf held
          · exact covered
        rw [rnMatch_eq isTop found isLeaf, rnMatch_eq ((near treetop).node.trans isTop)
          (searched.trans found) isLeaf', vlen]
        exact matchLeaf_near near masks ones positive covered within mask duped key

end Embryo.Radix
