import Embryo.Radix.Model

namespace Embryo.Radix

open Embryo.Machine

/-- `rn_satisfies_leaf`: its result, and the leaf as it leaves it. -/
def rnSatisfiesLeaf (ones : Caddr) (trial : Caddr) (leaf : RnLeaf) (skip : Nat) : Bool × RnLeaf :=
  let cp := trial
  let cp2 := leaf.key
  let len := min (cp 0).toNat (cp2 0).toNat
  let (len, mask, leaf) := match leaf.mask with
    | some mask => (min len (mask 0).toNat, mask, leaf)
    | none => (len, ones, { leaf with mask := some ones })
  -- the pointer into the mask stays where it is
  let cp3 := mask skip
  ((List.range' skip (len - skip)).all fun i => (cp i ^^^ cp2 i) &&& cp3 = 0, leaf)

inductive Matched where
  | host (rn : Nat)
  | normal (rn : Nat)
  | satisfied (rn : Nat)
  | promoted (rn : Nat)
  | masked (rx : Nat)
  | null

structure Matching where
  nodes : Nat → RadixNode
  rn : Nat
  matchedOff : Nat

def dupedPass (R : RadixStore) (v : Caddr) (rnB : UInt16) (s : Matching) :
    Option (Pass Matching (Matched × Matching)) :=
  if s.rn = 0 then some (.leave (.null, s))
  else
    match (s.nodes s.rn).leaf? with
    | none => none
    | some leaf =>
      if (s.nodes s.rn).flags.normal then
        -- both sides are `int`s here, of an `int16_t` and of a `ushort`
        if (s.nodes s.rn).b ≥ rnB.toNat then some (.leave (.normal s.rn, s))
        else some (.again { s with rn := leaf.dupedkey })
      else
        match rnSatisfiesLeaf R.ones v leaf s.matchedOff with
        | (true, leaf) => some (.leave (.satisfied s.rn, { s with nodes := setLeaf s.nodes s.rn leaf }))
        | (false, leaf) => some (.again { s with nodes := setLeaf s.nodes s.rn leaf, rn := leaf.dupedkey })

def maskPass (nodes : Nat → RadixNode) (m : Caddr) (rx : Nat) : Option (Pass Nat Nat) :=
  if rx = 0 then some (.leave 0)
  else
    match (nodes rx).leaf? with
    | none => none
    | some leaf =>
      if leaf.mask.map Caddr.addr = some m.addr then some (.leave rx) else some (.again leaf.dupedkey)

/-- The leaf that an entry without `RNF_NORMAL` leads to. -/
def maskedLeaf (fuel : Nat) (nodes : Nat → RadixNode) (v : Caddr) (m : Caddr) (rn : Nat) : Option Nat :=
  match rnSearchMask fuel nodes v m rn with
  | none => none
  | some rx => loop (maskPass nodes m) fuel rx

/-- The loop over the list of masks at the node `s.rn`. It tests that node, which has no key: what
    comes of that is `stray`. -/
def masksPass (fuel : Nat) (R : RadixStore) (stray : Caddr → RnNode → Nat → Bool) (v : Caddr) (rnB : UInt16)
    (s : Matching × Nat) : Option (Pass (Matching × Nat) (Matched × Matching)) :=
  let (s, rm) := s
  if rm = 0 then some (.leave (.null, s))
  else
    let m := R.masks rm
    match m.u with
    | .leaf leaf =>
      if ¬ m.flags.normal then none
      else if m.b ≥ rnB then some (.leave (.promoted leaf, s))
      else some (.again (s, m.next))
    | .mask mask =>
      if m.flags.normal then none
      else
        match maskedLeaf fuel s.nodes v mask s.rn, (s.nodes s.rn).node? with
        | some rx, some u =>
          let s := { s with matchedOff := min s.matchedOff u.off }
          if stray v u s.matchedOff then some (.leave (.masked rx, s)) else some (.again (s, m.next))
        | _, _ => none

def backPass (fuel : Nat) (R : RadixStore) (stray : Caddr → RnNode → Nat → Bool) (v : Caddr)
    (rnB : UInt16) (s : Matching) :
    Option (Pass Matching (Matched × Matching)) :=
  let s := { s with rn := (s.nodes s.rn).p }
  match loop (masksPass fuel R stray v rnB) fuel (s, (s.nodes s.rn).masklist) with
  | none => none
  | some (.null, s) =>
    if (s.nodes s.rn).p ≠ s.rn then some (.again s) else some (.leave (.null, s))
  | some (found, s) => some (.leave (found, s))

def firstDiff (v key : Caddr) (off vlen : Nat) : Option Nat :=
  (List.range' off (vlen - off)).find? fun i => v i ≠ key i

/-- `-1 - b`, where `b` is the `uchar` that the first bit not matched is kept in. -/
def unmatched (v key : Caddr) (matchedOff : Nat) : UInt16 :=
  let test := (v matchedOff ^^^ key matchedOff).toNat
  let b := (7 - test.log2 + matchedOff * 8) % 256
  UInt16.ofNat (65535 - b)

/-- `rn_match`, with the branch it returns from and the nodes as it leaves them. -/
def rnMatch (fuel : Nat) (R : RadixStore) (stray : Caddr → RnNode → Nat → Bool) (v : Caddr) (treetop : Nat) :
    Option (Matched × (Nat → RadixNode)) :=
  match (R.nodes treetop).node?, rnSearch fuel R.nodes v treetop with
  | some top, some rn =>
    match (R.nodes rn).leaf? with
    | none => none
    | some leaf =>
      let vlen := match leaf.mask with
        | some mask => (mask 0).toNat
        | none => (v 0).toNat
      match firstDiff v leaf.key top.off vlen with
      | none =>
        some (.host (if (R.nodes rn).flags.root ∧ leaf.dupedkey ≠ 0 then leaf.dupedkey else rn), R.nodes)
      | some matchedOff =>
        let rnB := unmatched v leaf.key matchedOff
        let start := if leaf.mask.isNone then leaf.dupedkey else rn
        match loop (dupedPass R v rnB) fuel ⟨R.nodes, start, matchedOff⟩ with
        | none => none
        | some (.null, s) =>
          match loop (backPass fuel R stray v rnB) fuel { s with rn := rn } with
          | none => none
          | some (found, s) => some (found, s.nodes)
        | some (found, s) => some (found, s.nodes)
  | _, _ => none

def matchLeaf (fuel : Nat) (R : RadixStore) (stray : Caddr → RnNode → Nat → Bool) (v : Caddr)
    (off rn : Nat) (leaf : RnLeaf) (vlen : Nat) :
    Option (Matched × (Nat → RadixNode)) :=
  match firstDiff v leaf.key off vlen with
  | none => some (.host (if (R.nodes rn).flags.root ∧ leaf.dupedkey ≠ 0 then leaf.dupedkey else rn), R.nodes)
  | some matchedOff =>
    let rnB := unmatched v leaf.key matchedOff
    match loop (dupedPass R v rnB) fuel ⟨R.nodes, if leaf.mask.isNone then leaf.dupedkey else rn,
        matchedOff⟩ with
    | none => none
    | some (.null, s) =>
      match loop (backPass fuel R stray v rnB) fuel { s with rn := rn } with
      | none => none
      | some (found, s) => some (found, s.nodes)
    | some (found, s) => some (found, s.nodes)

def RnLeaf.vlen (leaf : RnLeaf) (v : Caddr) : Nat :=
  match leaf.mask with
  | some mask => (mask 0).toNat
  | none => (v 0).toNat

theorem rnMatch_eq {fuel treetop rn : Nat} {R : RadixStore} {stray : Caddr → RnNode → Nat → Bool}
    {top : RnNode} {leaf : RnLeaf} (isTop : (R.nodes treetop).node? = some top)
    (found : rnSearch fuel R.nodes v treetop = some rn) (isLeaf : (R.nodes rn).leaf? = some leaf) :
    rnMatch fuel R stray v treetop = matchLeaf fuel R stray v top.off rn leaf (leaf.vlen v) := by
  rw [rnMatch, isTop, found]
  dsimp only
  rw [isLeaf]
  dsimp only
  rfl

/-- How many bytes of a leaf are compared, and the bytes of its mask, which are all ones where there
    is none. -/
def RnLeaf.span (leaf : RnLeaf) (v : Caddr) : Nat :=
  match leaf.mask with
  | some mask => min (min (v 0).toNat (leaf.key 0).toNat) (mask 0).toNat
  | none => min (v 0).toNat (leaf.key 0).toNat

def RnLeaf.maskByte (leaf : RnLeaf) (i : Nat) : UInt8 :=
  match leaf.mask with
  | some mask => mask i
  | none => 0xff

def Agrees (v : Caddr) (leaf : RnLeaf) (skip : Nat) : Prop :=
  ∀ i, skip ≤ i → i < leaf.span v → (v i ^^^ leaf.key i) &&& leaf.maskByte i = 0

theorem rnSatisfiesLeaf_eq {ones : Caddr} {v : Caddr} {leaf : RnLeaf} {skip : Nat} {mask : Caddr}
    (masked : leaf.mask = some mask) :
    ((rnSatisfiesLeaf ones v leaf skip).1 = true ↔
        ∀ i, skip ≤ i → i < leaf.span v → (v i ^^^ leaf.key i) &&& leaf.maskByte skip = 0) ∧
      (rnSatisfiesLeaf ones v leaf skip).2 = leaf := by
  simp only [rnSatisfiesLeaf, masked, RnLeaf.span, RnLeaf.maskByte, List.all_eq_true,
    List.mem_range'_1, decide_eq_true_eq, and_imp,
    and_true]
  constructor
  · intro all i least less
    exact all i least (by omega)
  · intro all i least less
    exact all i least (by omega)

def Covers (v : Caddr) (leaf : RnLeaf) (off : Nat) : Prop := Agrees v leaf off

theorem setLeaf_same {nodes : Nat → RadixNode} {rn : Nat} {leaf : RnLeaf}
    (isLeaf : (nodes rn).leaf? = some leaf) :
    setLeaf nodes rn leaf = nodes := by
  have arm : (nodes rn).u = .leaf leaf := by
    rw [RadixNode.leaf?] at isLeaf
    cases held : (nodes rn).u with
    | leaf u =>
      rw [held] at isLeaf
      exact congrArg RnU.leaf (Option.some.inj isLeaf)
    | node u =>
      rw [held] at isLeaf
      cases isLeaf
  rw [setLeaf, ← arm]
  exact Function.update_eq_self rn nodes

theorem firstDiff_spec {v key : Caddr} {off vlen skip : Nat} (found : firstDiff v key off vlen = some skip) :
    off ≤ skip ∧ v skip ≠ key skip ∧ ∀ i, off ≤ i → i < skip → v i = key i := by
  unfold firstDiff at found
  generalize vlen - off = n at found
  induction n generalizing off with
  | zero => cases found
  | succ n ih =>
    rw [List.range'_succ, List.find?_cons] at found
    by_cases differ : v off = key off
    · simp only [differ, ne_eq, not_true_eq_false, decide_false] at found
      obtain ⟨above, other, same⟩ := ih found
      refine ⟨by omega, other, fun i least less => ?_⟩
      by_cases here : i = off
      · rw [here, differ]
      · exact same i (by omega) less
    · simp only [differ, ne_eq, not_false_eq_true, decide_true, Option.some.injEq] at found
      subst found
      exact ⟨Nat.le_refl _, differ, fun i least less => by omega⟩

end Embryo.Radix
