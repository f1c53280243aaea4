import Embryo.Radix.Built
import Embryo.Radix.Fresh
import Embryo.Radix.MaskKey

namespace Embryo.Radix

open Embryo.Machine
open Embryo.Net (Caddr.len maskByte maskBit)

def initBuffers (T : Tables) (maxkeylen cp base : Nat) : Tables :=
  let block : Nat → UInt8 := fun i => if maxkeylen ≤ i ∧ i < 2 * maxkeylen then 0xff else 0
  { T with
    zeros := ⟨cp, block⟩
    ones := ⟨cp + maxkeylen, fun i => block (maxkeylen + i)⟩
    addrmaskkey := fun i => block (2 * maxkeylen + i)
    maxkeylen
    maskTop := base + sizeofRadixNode }

/-- `rn_init`: `domains` has the `dom_maxrtkey` fields, and the head of the masks lies at `base`. -/
def rnInit (T : Tables) (domains : List Nat) (cp base : Nat) : Option Tables :=
  let maxkeylen := domains.foldl (fun len maxrtkey => if len < maxrtkey then maxrtkey else len) T.maxkeylen
  if maxkeylen = 0 ∨ cp = 0 ∨ base = 0 then none
  else some (rnInithead (initBuffers T maxkeylen cp base) base 0)

def skipOf (skip : Nat) : Nat := if skip = 0 then 1 else skip

/-- What calls of `rn_addmask` make of the tables, with the masks and what has been returned. -/
inductive Interned (skip : Nat) (T₀ : Tables) : Tables → List (Caddr × Nat) → Prop
  | init : Interned skip T₀ T₀ []
  | add {T T' : Tables} {calls : List (Caddr × Nat)} {fuel pair a : Nat} (m : Caddr)
      (interned : Interned skip T₀ T calls)
      (length : Caddr.len m ≤ T.maxkeylen) (fresh : FreshPair T.nodes T.maskTop pair)
      (added : rnAddmask fuel T m false skip pair = some (a, T')) : Interned skip T₀ T' ((m, a) :: calls)

def width (T : Tables) : Nat := min T.maxkeylen 255

def Classified (n : RadixNode) (skip : Nat) (m : Caddr) : Prop :=
  (n.flags.normal = true ↔ ∃ p, Contiguous skip m p) ∧ ∀ p, Contiguous skip m p → n.b = -1 - p

def MaskLeaf (T : Tables) (skip : Nat) (e : LeafKey) : Prop :=
  ((T.nodes e.1).flags.root = true ∧ (e.2 0 = 0 ∨ ∀ i < width T, e.2 i = 0xff)) ∨
    ∃ m, Caddr.len m ≤ T.maxkeylen ∧ IsKey skip m e.2 ∧ Classified (T.nodes e.1) skip m

/-- What has been returned for a mask: the marker on the left if it has no ones, or the leaf with its key. -/
def Answer (T : Tables) (skip : Nat) (keys : List LeafKey) (m : Caddr) (a : Nat) : Prop :=
  Caddr.len m ≤ T.maxkeylen ∧ ((Blank skip m ∧ a = T.maskTop - sizeofRadixNode) ∨
    ∃ e ∈ keys, e.1 = a ∧ ∃ key, IsKey skip m key ∧ ∀ i < width T, e.2 i = key i)

structure Pool (skip : Nat) (T : Tables) (calls : List (Caddr × Nat)) (s : Tree) : Prop where
  patricia : Patricia T.nodes T.maskTop 0 s
  within : (s.shape T.nodes).Within (8 * width T)
  buffered : Buffered T
  left : (T.maskTop - sizeofRadixNode, T.zeros.bytes) ∈ (s.shape T.nodes).keys
  zero : T.zeros 0 = 0
  leaves : ∀ e ∈ (s.shape T.nodes).keys, MaskLeaf T skip e
  calls : ∀ c ∈ calls, Answer T skip (s.shape T.nodes).keys c.1 c.2

variable {T T' T₀ : Tables} {skip fuel fuel' pair a base cp : Nat} {m : Caddr} {s : Tree}
  {nodes nodes' : Nat → RadixNode}
  {calls : List (Caddr × Nat)} {domains : List Nat}

theorem skipOf_positive (skip : Nat) : 1 ≤ skipOf skip := by
  unfold skipOf
  split <;> omega

theorem rnInit_pool (init : rnInit T domains cp base = some T₀) :
    Pool (skipOf skip) T₀ [] (headTree base) := by
  unfold rnInit at init
  dsimp only at init
  generalize domains.foldl (fun len maxrtkey => if len < maxrtkey then maxrtkey else len)
    T.maxkeylen = maxkeylen at init
  split at init
  · cases init
  next present =>
  rw [not_or, not_or] at present
  obtain ⟨some, -, nonzero⟩ := present
  rw [Option.some.injEq] at init
  subst init
  have zero : (initBuffers T maxkeylen cp base).zeros 0 = 0 := if_neg (by omega)
  have one : ∀ i < maxkeylen, (initBuffers T maxkeylen cp base).ones i = 0xff :=
    fun i small => if_pos (by omega)
  obtain ⟨P, shape⟩ := @rnInithead_patricia (initBuffers T maxkeylen cp base) base 0 nonzero
    (by decide) zero (one 0 (by omega))
  obtain ⟨left, -, right⟩ := rnInithead_nodes (initBuffers T maxkeylen cp base) base 0
  have room : 0 < width (rnInithead (initBuffers T maxkeylen cp base) base 0) := by
    show 0 < min maxkeylen 255
    omega
  have keys : ((headTree base).shape (rnInithead (initBuffers T maxkeylen cp base) base 0).nodes).keys =
      [(base, (initBuffers T maxkeylen cp base).zeros.bytes),
          (base + 2 * sizeofRadixNode, (initBuffers T maxkeylen cp base).ones.bytes)] :=
    congrArg Trie.keys shape
  refine ⟨P, ?_, ⟨one, fun i _ _ => if_neg (by omega)⟩, ?_, zero, fun e member => .inl ?_,
    fun c member => absurd member List.not_mem_nil⟩
  · change ((headTree base).shape (rnInithead (initBuffers T maxkeylen cp base) base (8 * 0)).nodes).Within _
    rw [shape]
    exact ⟨by omega, trivial, trivial⟩
  · rw [keys]
    exact List.mem_cons_self
  · rw [keys] at member
    rcases List.mem_pair.mp member with rfl | rfl
    · exact ⟨by rw [left], .inl zero⟩
    · refine ⟨by rw [right], .inr fun i small => one i ?_⟩
      exact Nat.lt_of_lt_of_le small (Nat.min_le_left _ _)

section Relabel

variable {a : Nat} {n : RadixNode} (isLeaf : (nodes a).leaf?.isSome = true) (links : n.u = (nodes a).u)
include isLeaf links

theorem shape_relabel {q : Nat} (holds : Holds nodes q s) :
    s.shape (Function.update nodes a n) = s.shape nodes ∧
    (Indexed nodes s → Indexed (Function.update nodes a n) s) := by
  induction s generalizing q with
  | leaf chain =>
    refine ⟨?_, fun _ => trivial⟩
    have key : keyOf (Function.update nodes a n) (chain.headD 0) = keyOf nodes (chain.headD 0) := by
      rw [keyOf, keyOf, update_leaf fun here => ?_]
      rw [RadixNode.leaf?, links, here, ← RadixNode.leaf?]
    rw [Tree.shape, Tree.shape, leafKey, leafKey, key]
  | node c l r ihl ihr =>
    obtain ⟨-, -, -, ⟨off, isNode⟩, left, right⟩ := holds
    have same : Function.update nodes a n c = nodes c :=
      Function.update_of_ne (leaf_ne_node isLeaf isNode).symm _ _
    obtain ⟨shapeL, indexedL⟩ := ihl left
    obtain ⟨shapeR, indexedR⟩ := ihr right
    constructor
    · rw [Tree.shape, Tree.shape, same, shapeL, shapeR]
    · rintro ⟨marked, inL, inR⟩
      refine ⟨?_, indexedL inL, indexedR inR⟩
      rw [Marked, same]
      exact marked

theorem Patricia.relabel {treetop off : Nat} (P : Patricia nodes treetop off s)
    (negative : (nodes a).b < 0) (p : n.p = (nodes a).p)
    (b : n.b < 0) (low : -(2^31 : Int) ≤ n.b) : Patricia (Function.update nodes a n) treetop off s ∧
      s.shape (Function.update nodes a n) = s.shape nodes := by
  obtain ⟨shape, indexed⟩ := shape_relabel isLeaf links P.stands.holds
  have like : ∀ c, Like nodes (Function.update nodes a n) c := by
    intro c
    by_cases here : c = a
    · rw [here]
      refine ⟨?_, ?_, ?_, ?_, ?_⟩
      · rw [Function.update_self]
        exact iff_of_true b negative
      · rw [Function.update_self, p]
      · rw [dup, dup, Function.update_self, RadixNode.leaf?, links, ← RadixNode.leaf?]
      · rw [Function.update_self, RadixNode.leaf?, links, ← RadixNode.leaf?]
      · rw [Function.update_self, RadixNode.node?, links, ← RadixNode.node?]
    · exact .of_same (by rw [Function.update_of_ne here]) (by rw [Function.update_of_ne here])
        (by rw [Function.update_of_ne here])
  have top : treetop ≠ a := by
    obtain ⟨u, isNode, -⟩ := P.topNode
    rw [P.stands.root] at isNode
    exact (leaf_ne_node isLeaf isNode).symm
  refine ⟨⟨⟨P.stands.holds.alike fun c _ => like c, P.stands.root, fun c member => ?_⟩, P.nodup,
    P.single, P.inner, indexed P.indexed, ?_, ?_⟩, shape⟩
  · by_cases here : c = a
    · rw [here, Function.update_self]
      exact low
    · rw [Function.update_of_ne here]
      exact P.stands.low c member
  · rw [Function.update_of_ne top]
    exact P.index
  · rw [shape]
    exact P.sound

end Relabel

def searching (T : Tables) (m : Caddr) (skip : Nat) : Tables :=
  { T with addrmaskkey := bufferKey T m skip, lastZeros := (cutMask T m skip).2.2 }

def keyAt (T : Tables) (m : Caddr) (skip pair : Nat) : Caddr := ⟨pair + 2 * sizeofRadixNode, keptKey T m skip⟩

def labelled (n : RadixNode) (found : Bool × Nat) : RadixNode :=
  { n with b := -1 - found.2, flags := { n.flags with normal := n.flags.normal || found.1 } }

def entered (T : Tables) (m : Caddr) (skip pair : Nat) (nodes' : Nat → RadixNode) : Tables :=
  { searching T m skip with
    nodes := Function.update nodes' pair (labelled (nodes' pair)
      (maskIndex (keyAt T m skip pair) skip (cutMask T m skip).2.2)) }

section Calls

theorem rnAddmask_short (short : min (m 0).toNat T.maxkeylen ≤ skipOf skip) :
    rnAddmask fuel T m false skip pair = some (T.maskTop - sizeofRadixNode, T) := by
  unfold skipOf at short
  simp only [rnAddmask]
  rw [if_pos short]

variable (long : ¬ min (m 0).toNat T.maxkeylen ≤ skipOf skip)
include long

theorem rnAddmask_blank (blank : (cutMask T m (skipOf skip)).2.2 ≤ skipOf skip) :
    rnAddmask fuel T m false skip pair = some (T.maskTop - sizeofRadixNode, { T with
      addrmaskkey := (cutMask T m (skipOf skip)).1
      lastZeros := if (cutMask T m (skipOf skip)).2.1 ≥ T.lastZeros then
          (cutMask T m (skipOf skip)).2.2 else T.lastZeros }) := by
  unfold skipOf at long blank ⊢
  simp only [rnAddmask]
  rw [if_neg long, if_pos blank]

variable (some : ¬ (cutMask T m (skipOf skip)).2.2 ≤ skipOf skip) {t : Nat} {leaf : RnLeaf}
  (searched : rnSearch fuel T.nodes ⟨0, bufferKey T m (skipOf skip)⟩ T.maskTop = .some t)
    (isLeaf : (T.nodes t).leaf? = .some leaf)
include some searched isLeaf

theorem rnAddmask_found (found : ∀ i < (cutMask T m (skipOf skip)).2.2,
    bufferKey T m (skipOf skip) i = leaf.key i) :
    rnAddmask fuel T m false skip pair = .some (t, searching T m (skipOf skip)) := by
  have all : ((List.range (cutMask T m (skipOf skip)).2.2).all fun i =>
      decide (bufferKey T m (skipOf skip) i = leaf.key i)) = true := by
    simpa [List.all_eq_true] using found
  unfold skipOf at long some searched all ⊢
  unfold bufferKey at searched all
  simp only [rnAddmask]
  rw [if_neg long, if_neg some]
  simp only [searched, isLeaf, all]
  rfl

theorem rnAddmask_new (other : ¬ ∀ i < (cutMask T m (skipOf skip)).2.2,
    bufferKey T m (skipOf skip) i = leaf.key i) (given : pair ≠ 0)
    (inserted : rnInsert fuel (zalloc T.nodes pair) (keyAt T m (skipOf skip) pair) T.maskTop pair
      (pair + sizeofRadixNode) =
      .some (pair, false, nodes')) :
    rnAddmask fuel T m false skip pair = .some (pair, entered T m (skipOf skip) pair nodes') := by
  have all : ((List.range (cutMask T m (skipOf skip)).2.2).all fun i =>
      decide (bufferKey T m (skipOf skip) i = leaf.key i)) = false := by
    rw [← Bool.not_eq_true, List.all_eq_true]
    simpa using other
  unfold skipOf at long some searched all inserted ⊢
  unfold entered
  unfold keyAt keptKey at inserted ⊢
  unfold bufferKey at searched all inserted ⊢
  unfold zalloc at inserted
  simp only [rnAddmask]
  rw [if_neg long, if_neg some]
  simp only [searched, isLeaf, all, Bool.false_eq_true, if_false, given]
  rw [inserted]
  rfl

end Calls

theorem Pool.add {a : Nat} (pool : Pool skip T calls s) (answer : Answer T skip (s.shape T.nodes).keys m a) :
    Pool skip T ((m, a) :: calls) s := by
  refine ⟨pool.patricia, pool.within, pool.buffered, pool.left, pool.zero, pool.leaves, fun c member => ?_⟩
  rcases List.mem_cons.mp member with rfl | old
  · exact answer
  · exact pool.calls c old

theorem Pool.rebuffer (pool : Pool skip T calls s) {key : Nat → UInt8} {last : Nat}
    (buffered : Buffered { T with addrmaskkey := key, lastZeros := last }) :
    Pool skip { T with addrmaskkey := key, lastZeros := last } calls s :=
  ⟨pool.patricia, pool.within, buffered, pool.left, pool.zero, pool.leaves, pool.calls⟩

theorem blank_short (short : Caddr.len m ≤ skip) : Blank skip m := fun i low => if_neg (by omega)

section Step

variable (pool : Pool (skipOf skip) T calls s) (length : Caddr.len m ≤ T.maxkeylen)
include pool

theorem leaf_ended {e : LeafKey} (member : e ∈ (s.shape T.nodes).keys) {key : Nat → UInt8}
    (isKey : IsKey (skipOf skip) m key)
    (same : ∀ i < (key 0).toNat, key i = e.2 i) : ∀ i < width T, e.2 i = key i := by
  have more := isKey.more
  have byte := (key 0).toNat_lt
  have first := same 0 (by omega)
  intro i small
  by_cases inside : i < (key 0).toNat
  · exact (same i inside).symm
  have ended := isKey.ended i (by omega)
  rw [isKey.bytes i (by omega), ended]
  rcases pool.leaves e member with ⟨-, zero | ones⟩ | ⟨m', -, isKey', -⟩
  · rw [zero] at first
    rw [first] at more
    exact absurd more (Nat.not_lt_zero _)
  · have full := ones 0 (by omega)
    rw [full] at first
    rw [first] at inside
    have wide : i < 255 := Nat.lt_of_lt_of_le small (Nat.min_le_right _ _)
    exact absurd wide inside
  · have more' := isKey'.more
    rw [first] at inside
    rw [isKey'.bytes i (by omega), isKey'.ended i (by omega)]

include length

theorem buffered_blank (inside : skipOf skip < Caddr.len m) : Buffered { T with
    addrmaskkey := (cutMask T m (skipOf skip)).1
    lastZeros := if (cutMask T m (skipOf skip)).2.1 ≥ T.lastZeros then
        (cutMask T m (skipOf skip)).2.2 else T.lastZeros } := by
  obtain ⟨bound, zeros, -⟩ := @cutMask_scan (skipOf skip) m T length
  obtain ⟨-, behind⟩ := cutMask_bytes length inside
  have len := @cutMask_len (skipOf skip) m T length
  refine ⟨pool.buffered.ones, fun i past small => ?_⟩
  change (cutMask T m (skipOf skip)).1 i = 0
  change (if (cutMask T m (skipOf skip)).2.1 ≥ T.lastZeros then (cutMask T m (skipOf skip)).2.2
    else T.lastZeros) ≤ i at past
  by_cases within : i < Caddr.len m
  · split at past
    · exact zeros i past within
    · omega
  · rw [behind i (by omega)]
    refine pool.buffered.zeros i ?_ small
    split at past <;> omega

theorem buffered_searching (inside : skipOf skip < Caddr.len m) (some : ¬ Blank (skipOf skip) m) :
    Buffered (searching T m (skipOf skip)) := by
  refine ⟨pool.buffered.ones, fun i past small => ?_⟩
  change bufferKey T m (skipOf skip) i = 0
  rw [bufferKey_eq pool.buffered length (skipOf_positive skip) inside some i small, keptKey, if_neg]
  exact Nat.not_lt.mpr past

theorem search_kept (inside : skipOf skip < Caddr.len m) (some : ¬ Blank (skipOf skip) m) :
    (s.shape T.nodes).find (bitAt (keptKey T m (skipOf skip))) =
      leafKey T.nodes (s.leafOf T.nodes ⟨0, bufferKey T m (skipOf skip)⟩) := by
  have same : ∀ i, 0 ≤ i → i < width T → keptKey T m (skipOf skip) i = bufferKey T m (skipOf skip) i := by
    intro i _ small
    have within : i < T.maxkeylen := Nat.lt_of_lt_of_le small (Nat.min_le_left _ _)
    exact (bufferKey_eq pool.buffered length (skipOf_positive skip) inside some i within).symm
  rw [pool.patricia.sound.find_congr (Nat.le_refl _) pool.within (bytes_eq_iff.mp same)]
  exact find_shape (v := ⟨0, bufferKey T m (skipOf skip)⟩) pool.patricia.indexed

theorem Pool.found (enough : s.depth < fuel) (inside : skipOf skip < Caddr.len m)
    (some : ¬ Blank (skipOf skip) m)
    (found : ∀ i < (cutMask T m (skipOf skip)).2.2, bufferKey T m (skipOf skip) i =
      keyOf T.nodes (s.leafOf T.nodes ⟨0, bufferKey T m (skipOf skip)⟩) i) :
    ∃ a T' s', rnAddmask fuel T m false skip pair = .some (a, T') ∧
      Pool (skipOf skip) T' ((m, a) :: calls) s' := by
  obtain ⟨isKey, first⟩ := keptKey_isKey pool.buffered length (skipOf_positive skip) inside some
  have kept := search_kept pool length inside some
  have bound : min (m 0).toNat T.maxkeylen = Caddr.len m := Nat.min_eq_left length
  have cut := cutMask_blank length (skipOf_positive skip) inside
  obtain ⟨leaf, isLeaf⟩ := pool.patricia.leaf (v := ⟨0, bufferKey T m (skipOf skip)⟩)
  have key := keyOf_leaf isLeaf
  have member := Trie.find_mem (bitAt (keptKey T m (skipOf skip))) (s.shape T.nodes)
  rw [kept] at member
  have agree : ∀ i < (keptKey T m (skipOf skip) 0).toNat, keptKey T m (skipOf skip) i =
      keyOf T.nodes (s.leafOf T.nodes ⟨0, bufferKey T m (skipOf skip)⟩) i := by
    intro i small
    rw [first] at small
    rw [keptKey, if_pos small, found i small]
  refine ⟨_, _, s, rnAddmask_found (by omega) (by rw [cut]; exact some)
    (pool.patricia.search enough) isLeaf (by rw [← key]; exact found), ?_⟩
  refine Pool.add (pool.rebuffer (buffered_searching pool length inside some))
    ⟨length, .inr ⟨_, member, rfl, _, isKey, ?_⟩⟩
  exact leaf_ended pool member isKey agree

structure Entered (T T' : Tables) (skip : Nat) (m : Caddr) (pair : Nat) (s s' : Tree) : Prop where
  patricia : Patricia T'.nodes T'.maskTop 0 s'
  within : (s'.shape T'.nodes).Within (8 * width T)
  buffered : Buffered T'
  same : T'.maskTop = T.maskTop ∧ T'.zeros = T.zeros ∧ T'.maxkeylen = T.maxkeylen
  key : ∃ key, IsKey skip m key ∧ ∀ e, e ∈ (s'.shape T'.nodes).keys ↔ e = (pair, key) ∨
    e ∈ (s.shape T.nodes).keys
  new : Classified (T'.nodes pair) skip m
  old : ∀ e ∈ (s.shape T.nodes).keys, (T'.nodes e.1).b = (T.nodes e.1).b ∧
    (T'.nodes e.1).flags = (T.nodes e.1).flags

theorem Pool.enter {s' : Tree} (entered : Entered T T' (skipOf skip) m pair s s') :
    Pool (skipOf skip) T' ((m, pair) :: calls) s' := by
  obtain ⟨top, zeros, maxkeylen⟩ := entered.same
  obtain ⟨key, isKey, members⟩ := entered.key
  have wide : width T' = width T := by rw [width, width, maxkeylen]
  refine ⟨entered.patricia, by
    rw [wide]; exact entered.within, entered.buffered, ?_, by rw [zeros]; exact pool.zero, fun e member => ?_,
    fun c member => ?_⟩
  · rw [top, zeros]
    exact (members _).mpr (.inr pool.left)
  · rcases (members e).mp member with rfl | inOld
    · exact .inr ⟨m, by rw [maxkeylen]; exact length, isKey, entered.new⟩
    · obtain ⟨bit, flags⟩ := entered.old e inOld
      have leaf := pool.leaves e inOld
      unfold MaskLeaf Classified at leaf ⊢
      rw [wide, flags, bit, maxkeylen]
      exact leaf
  · rw [Answer, top, wide, maxkeylen]
    rcases List.mem_cons.mp member with rfl | before
    · exact ⟨length, .inr ⟨_, (members _).mpr (.inl rfl), rfl, key, isKey, fun _ _ => rfl⟩⟩
    · obtain ⟨length', answer⟩ := pool.calls c before
      exact ⟨length', answer.imp_right fun ⟨e, inOld, key⟩ => ⟨e, (members e).mpr (.inr inOld), key⟩⟩

theorem entered_spec {s' : Tree} {b : Nat} (fresh : FreshPair T.nodes T.maskTop pair)
    (inside : skipOf skip < Caddr.len m)
    (some : ¬ Blank (skipOf skip) m)
    (grew : Grew (zalloc T.nodes pair) nodes' (keyAt T m (skipOf skip) pair) T.maskTop 0 s s' b pair
      (pair + sizeofRadixNode)) :
    Entered T (entered T m (skipOf skip) pair nodes') (skipOf skip) m pair s s' := by
  obtain ⟨isKey, first⟩ := keptKey_isKey pool.buffered length (skipOf_positive skip) inside some
  obtain ⟨-, shape⟩ := pool.patricia.zalloc fresh
  obtain ⟨short, -⟩ := @cutMask_scan (skipOf skip) m T length
  have buffers := buffered_searching pool length inside some
  have byte := @cutMask_length T m (skipOf skip)
  have more := isKey.more
  have index := @maskIndex_le (keyAt T m (skipOf skip) pair) (skipOf skip)
    (cutMask T m (skipOf skip)).2.2 (by omega)
  obtain ⟨normal, place⟩ := @maskIndex_spec (skipOf skip) m (keyAt T m (skipOf skip) pair) isKey
  rw [show (keyAt T m (skipOf skip) pair 0).toNat =
    (cutMask T m (skipOf skip)).2.2 from first] at normal place
  obtain ⟨bit, flags, isNew⟩ := grew.new
  have nodes : (entered T m (skipOf skip) pair nodes').nodes = Function.update nodes' pair
      (labelled (nodes' pair) (maskIndex (keyAt T m (skipOf skip) pair) (skipOf skip)
        (cutMask T m (skipOf skip)).2.2)) := rfl
  generalize maskIndex (keyAt T m (skipOf skip) pair) (skipOf skip)
    (cutMask T m (skipOf skip)).2.2 = found at index normal place nodes
  obtain ⟨patricia, same⟩ := @Patricia.relabel s' nodes' pair (labelled (nodes' pair) found)
    (by rw [isNew]; rfl) rfl _ _ grew.patricia
    (by rw [bit]; decide) rfl (show -1 - (found.2 : Int) < 0 by omega)
      (show -(2^31 : Int) ≤ -1 - (found.2 : Int) by omega)
  rw [← nodes] at patricia same
  refine ⟨patricia, ?_, ⟨buffers.ones, buffers.zeros⟩, ⟨rfl, rfl, rfl⟩, ⟨_, isKey, fun e => ?_⟩, ?_,
    fun e member => ?_⟩
  · rw [same, grew.shape, shape]
    refine Trie.grow_within _ pool.within ?_
    have high := grew.high
    have room : (keyAt T m (skipOf skip) pair 0).toNat ≤ width T := by
      change (keptKey T m (skipOf skip) 0).toNat ≤ min T.maxkeylen 255
      omega
    exact Nat.lt_of_lt_of_le high (Nat.mul_le_mul_left 8 room)
  · rw [same, grew.shape, shape]
    exact Trie.mem_grow
  · rw [nodes, Classified, Function.update_self]
    change (((nodes' pair).flags.normal || found.1) = true ↔ _) ∧
      ∀ p, Contiguous (skipOf skip) m p → -1 - (found.2 : Int) = -1 - p
    rw [flags, Bool.false_or]
    exact ⟨normal, fun p contiguous => by rw [place p contiguous]⟩
  · have below := (key_below pool.patricia.stands.holds member).1.1
    rw [pool.patricia.stands.root] at below
    obtain ⟨notPair, notNext⟩ := fresh.2 e.1 below
    have kept := grew.kept e.1 notPair notNext
    rw [nodes, Function.update_of_ne notPair, ← @zalloc_others T.nodes pair e.1 notPair notNext]
    exact ⟨kept.b, kept.flags⟩

theorem Pool.new (enough : s.depth < fuel) (fresh : FreshPair T.nodes T.maskTop pair)
    (inside : skipOf skip < Caddr.len m)
    (some : ¬ Blank (skipOf skip) m)
    (other : ¬ ∀ i < (cutMask T m (skipOf skip)).2.2, bufferKey T m (skipOf skip) i =
      keyOf T.nodes (s.leafOf T.nodes ⟨0, bufferKey T m (skipOf skip)⟩) i) :
    ∃ a T' s', rnAddmask fuel T m false skip pair = .some (a, T') ∧
      Pool (skipOf skip) T' ((m, a) :: calls) s' := by
  obtain ⟨-, first⟩ := keptKey_isKey pool.buffered length (skipOf_positive skip) inside some
  have bound : min (m 0).toNat T.maxkeylen = Caddr.len m := Nat.min_eq_left length
  have cut := cutMask_blank length (skipOf_positive skip) inside
  obtain ⟨leaf, isLeaf⟩ := pool.patricia.leaf (v := ⟨0, bufferKey T m (skipOf skip)⟩)
  have key := keyOf_leaf isLeaf
  obtain ⟨zeroed, shape⟩ := pool.patricia.zalloc fresh
  have at_leaf := find_shape (v := keyAt T m (skipOf skip) pair) zeroed.indexed
  rw [shape] at at_leaf
  have keys := congrArg Prod.snd (at_leaf.symm.trans (search_kept pool length inside some))
  rcases pool.patricia.step (v := keyAt T m (skipOf skip) pair) fresh enough with ⟨same, -⟩
    | ⟨i, b, nodes', s', low, high, differ, inserted, grew⟩
  · exfalso
    apply other
    intro i small
    have here := same i (Nat.zero_le i)
      (by rw [show (keyAt T m (skipOf skip) pair 0).toNat = _ from first]; exact small)
    change keptKey T m (skipOf skip) i = keyOf (zalloc T.nodes pair)
      (s.leafOf (zalloc T.nodes pair) _) i at here
    rw [keptKey, if_pos small] at here
    rw [here]
    exact congrFun keys i
  · have new := rnAddmask_new (by omega) (by rw [cut]; exact some) (pool.patricia.search enough)
      isLeaf (by rw [← key]; exact other) fresh.1 inserted
    exact ⟨_, _, s', new, pool.enter length (entered_spec pool length fresh inside some grew)⟩

theorem Pool.step (enough : s.depth < fuel) (fresh : FreshPair T.nodes T.maskTop pair) :
    ∃ a T' s', rnAddmask fuel T m false skip pair = some (a, T') ∧
      Pool (skipOf skip) T' ((m, a) :: calls) s' := by
  have bound : min (m 0).toNat T.maxkeylen = Caddr.len m := Nat.min_eq_left length
  by_cases short : Caddr.len m ≤ skipOf skip
  · exact ⟨_, T, s, rnAddmask_short (by omega), pool.add ⟨length, .inl ⟨blank_short short, rfl⟩⟩⟩
  have inside : skipOf skip < Caddr.len m := by omega
  by_cases blank : Blank (skipOf skip) m
  · have cut := (cutMask_blank length (skipOf_positive skip) inside).mpr blank
    refine ⟨_, _, s, rnAddmask_blank (by omega) cut,
      Pool.add (pool.rebuffer (buffered_blank pool length inside)) ?_⟩
    exact ⟨length, .inl ⟨blank, rfl⟩⟩
  · by_cases found : ∀ i < (cutMask T m (skipOf skip)).2.2, bufferKey T m (skipOf skip) i =
        keyOf T.nodes (s.leafOf T.nodes ⟨0, bufferKey T m (skipOf skip)⟩) i
    · exact pool.found length enough inside blank found
    · exact pool.new length enough fresh inside blank found

end Step

theorem rnAddmask_mono {search : Bool} {result : Nat × Tables}
    (added : rnAddmask fuel T m search skip pair = some result)
    (more : fuel ≤ fuel') : rnAddmask fuel' T m search skip pair = some result := by
  unfold rnAddmask at added ⊢
  dsimp only at added ⊢
  generalize (if skip = 0 then 1 else skip) = skip at added ⊢
  by_cases brief : min (m 0).toNat T.maxkeylen ≤ skip
  · rw [if_pos brief] at added ⊢
    exact added
  rw [if_neg brief] at added ⊢
  generalize cutMask T m skip = cut at added ⊢
  obtain ⟨key, mlen0, mlen⟩ := cut
  dsimp only at added ⊢
  by_cases short : mlen ≤ skip
  · rw [if_pos short] at added ⊢
    exact added
  rw [if_neg short] at added ⊢
  split at added
  · cases added
  next t searched =>
  have searched' : rnSearch fuel' _ _ _ = .some t := loop_mono searched more fun _ _ passed => passed
  rw [searched']
  dsimp only
  split at added
  · cases added
  split at added
  · next found =>
    rw [if_pos found]
    exact added
  next other =>
  rw [if_neg other]
  split at added
  · next found =>
    rw [if_pos found]
    exact added
  next searches =>
  rw [if_neg searches]
  split at added
  · next none =>
    rw [if_pos none]
    exact added
  next given =>
  rw [if_neg given]
  split at added
  · cases added
  · next r nodes inserted =>
    rw [rnInsert_mono inserted more]
    exact added
  · next r nodes inserted =>
    rw [rnInsert_mono inserted more]
    exact added

theorem Interned.pool (interned : Interned skip T₀ T calls) (init : rnInit T' domains cp base = some T₀) :
    ∃ s, Pool (skipOf skip) T calls s := by
  induction interned with
  | init => exact ⟨_, rnInit_pool init⟩
  | @add T T' calls fuel pair a m interned length fresh added ih =>
    obtain ⟨s, pool⟩ := ih
    obtain ⟨a', after, s', added', pool'⟩ := pool.step length (Nat.lt_succ_self s.depth) fresh
    have one := rnAddmask_mono added (Nat.le_max_left fuel (s.depth + 1))
    have other := rnAddmask_mono added' (Nat.le_max_right fuel (s.depth + 1))
    rw [one] at other
    cases other
    exact ⟨s', pool'⟩

section Answers

variable {e : LeafKey} {key : Nat → UInt8} {n : Caddr}

theorem SameBits.contiguous (same : SameBits skip m n) (p : Nat) :
    Contiguous skip m p ↔ Contiguous skip n p := by
  constructor
  · exact fun contiguous j low => (same j low).symm.trans (contiguous j low)
  · exact fun contiguous j low => (same j low).trans (contiguous j low)

theorem maskByte_narrow (length : Caddr.len m ≤ T.maxkeylen) : ∀ i ≥ width T, maskByte m i = 0 := by
  intro i past
  have byte : Caddr.len m < 256 := (m 0).toNat_lt
  unfold width at past
  exact if_neg (by omega)

variable (pool : Pool (skipOf skip) T calls s)
include pool

theorem left_other (member : e ∈ (s.shape T.nodes).keys) (isKey : IsKey (skipOf skip) m key)
    (length : Caddr.len m ≤ T.maxkeylen)
    (same : ∀ i < width T, e.2 i = key i) : e.1 ≠ T.maskTop - sizeofRadixNode := by
  intro here
  have more := isKey.more
  have byte := (key 0).toNat_lt
  have room : 0 < width T := by
    by_contra none
    exact isKey.last (maskByte_narrow length _ (by omega))
  have holds := pool.patricia.stands.holds
  have zeros := (key_below holds pool.left).2
  have mine := (key_below holds member).2
  rw [here, zeros] at mine
  have first : T.zeros 0 = key 0 := by
    rw [← same 0 room, ← mine]
  rw [← first, pool.zero] at more
  exact absurd more (Nat.not_lt_zero _)

theorem leaf_iff {e' : LeafKey} {key' : Nat → UInt8} (member : e ∈ (s.shape T.nodes).keys)
    (member' : e' ∈ (s.shape T.nodes).keys) (isKey : IsKey (skipOf skip) m key)
    (isKey' : IsKey (skipOf skip) n key') (length : Caddr.len m ≤ T.maxkeylen)
    (length' : Caddr.len n ≤ T.maxkeylen) (same : ∀ i < width T, e.2 i = key i)
    (same' : ∀ i < width T, e'.2 i = key' i) :
    e.1 = e'.1 ↔ SameBits (skipOf skip) m n := by
  constructor
  · intro one
    have holds := pool.patricia.stands.holds
    have keys : e.2 = e'.2 := by rw [← (key_below holds member).2, ← (key_below holds member').2, one]
    refine isKey.same isKey' (fun i past => ⟨maskByte_narrow length i past,
      maskByte_narrow length' i past⟩) fun i small => ?_
    rw [← same i small, ← same' i small, keys]
  · intro bits
    obtain rfl := isKey.unique isKey' (skipOf_positive skip) bits
    have sound := pool.patricia.sound
    have found : ∀ e ∈ (s.shape T.nodes).keys, (∀ i < width T, e.2 i = key i) →
        (s.shape T.nodes).find (bitAt key) = e := by
      intro e member same
      exact sound.find_agree (Nat.le_refl _) pool.within member (bytes_eq_iff.mp fun i _ small =>
        (same i small).symm)
    exact congrArg Prod.fst ((found e member same).symm.trans (found e' member' same'))

theorem answer_iff {a b : Nat} (first : Answer T (skipOf skip) (s.shape T.nodes).keys m a)
    (second : Answer T (skipOf skip) (s.shape T.nodes).keys n b) : a = b ↔ SameBits (skipOf skip) m n := by
  obtain ⟨length, ⟨blank, rfl⟩ | ⟨e, member, rfl, key, isKey, same⟩⟩ := first <;>
    obtain ⟨length', ⟨blank', rfl⟩ | ⟨e', member', rfl, key', isKey', same'⟩⟩ := second
  · refine iff_of_true rfl (sameBits_iff.mpr fun i low => ?_)
    rw [blank i low, blank' i low]
  · refine iff_of_false (left_other pool member' isKey' length' same').symm fun bits =>
      isKey'.not_blank fun i low => ?_
    rw [← sameBits_iff.mp bits i low, blank i low]
  · refine iff_of_false (left_other pool member isKey length same) fun bits => isKey.not_blank fun i low => ?_
    rw [sameBits_iff.mp bits i low, blank' i low]
  · exact leaf_iff pool member member' isKey isKey' length length' same same'

theorem answer_classified {a : Nat} (answer : Answer T (skipOf skip) (s.shape T.nodes).keys m a)
    (other : (T.nodes a).flags.root = false) : Classified (T.nodes a) (skipOf skip) m := by
  obtain ⟨length, ⟨-, rfl⟩ | ⟨e, member, rfl, key, isKey, same⟩⟩ := answer
  · rcases pool.leaves _ pool.left with ⟨root, -⟩ | ⟨m', -, isKey', -⟩
    · rw [other] at root
      cases root
    · have more : skipOf skip < (T.zeros 0).toNat := isKey'.more
      rw [pool.zero] at more
      exact absurd more (Nat.not_lt_zero _)
  · rcases pool.leaves e member with ⟨root, -⟩ | ⟨m', length', isKey', classified⟩
    · rw [other] at root
      cases root
    · have bits := (leaf_iff pool member member isKey isKey' length length' same fun _ _ => rfl).mp rfl
      have same_place := bits.contiguous
      unfold Classified at classified ⊢
      simp only [same_place]
      exact classified

end Answers

/-- Every mask has one leaf, which says whether it is contiguous and where it ends. -/
theorem rnAddmask_interns (init : rnInit T domains cp base = some T₀) (interned : Interned skip T₀ T' calls) :
    (∀ c ∈ calls, ∀ d ∈ calls, c.2 = d.2 ↔ SameBits (skipOf skip) c.1 d.1) ∧
      (∀ c ∈ calls, (T'.nodes c.2).flags.root = false →
        ((T'.nodes c.2).flags.normal = true ↔ ∃ p, Contiguous (skipOf skip) c.1 p) ∧
          ∀ p, Contiguous (skipOf skip) c.1 p → (T'.nodes c.2).b = -1 - p) ∧
      ∀ m pair, Caddr.len m ≤ T'.maxkeylen → FreshPair T'.nodes T'.maskTop pair →
        ∃ fuel a T'', rnAddmask fuel T' m false skip pair = some (a, T'') := by
  obtain ⟨s, pool⟩ := interned.pool init
  refine ⟨fun c inC d inD => answer_iff pool (pool.calls c inC) (pool.calls d inD),
    fun c inC other => ?_, fun m pair length fresh => ?_⟩
  · exact answer_classified pool (pool.calls c inC) other
  · obtain ⟨a, T'', -, added, -⟩ := pool.step length (Nat.lt_succ_self s.depth) fresh
    exact ⟨s.depth + 1, a, T'', added⟩

def poolStart : Tables := (rnInit bare [16] 10 1000).getD bare

def poolBlank : Tables := ((rnAddmask 4 poolStart (netmaskOf 0 0 0 0) false 4 5000).map Prod.snd).getD bare

def poolEight : Tables := ((rnAddmask 4 poolBlank (netmaskOf 255 0 0 0) false 4 5000).map Prod.snd).getD bare

theorem poolStart_init : rnInit bare [16] 10 1000 = some poolStart := rfl

theorem poolEight_interned :
    Interned 4 poolStart poolEight [(netmaskOf 255 0 0 0, 5000), (netmaskOf 0 0 0 0, 1000)] := by
  have fresh : FreshPair poolStart.nodes 1024 5000 := by
    refine ⟨by decide, fun c below => ?_⟩
    have pool : Pool (skipOf 4) poolStart [] (headTree 1000) := rnInit_pool poolStart_init
    have member : c ∈ [1024, 1000, 1048] := below_mem pool.patricia.stands.holds below
    simp only [List.mem_cons, List.not_mem_nil, or_false] at member
    unfold sizeofRadixNode
    omega
  have blank : rnAddmask 4 poolStart (netmaskOf 0 0 0 0) false 4 5000 = some (1000, poolBlank) := rfl
  have eight : rnAddmask 4 poolBlank (netmaskOf 255 0 0 0) false 4 5000 = some (5000, poolEight) := rfl
  have first := Interned.add (netmaskOf 0 0 0 0) .init (by decide) fresh blank
  exact Interned.add (netmaskOf 255 0 0 0) first (by decide) fresh eight

theorem poolEight_answers :
    ((5000 : Nat) = 1000 ↔ SameBits 4 (netmaskOf 255 0 0 0) (netmaskOf 0 0 0 0)) ∧
      ((poolEight.nodes 5000).flags.normal = true ↔ ∃ p, Contiguous 4 (netmaskOf 255 0 0 0) p) := by
  obtain ⟨same, classified, -⟩ := rnAddmask_interns poolStart_init poolEight_interned
  exact ⟨same (_, 5000) List.mem_cons_self (_, 1000) (List.mem_cons_of_mem _ List.mem_cons_self),
    (classified (_, 5000) List.mem_cons_self (by decide +kernel)).1⟩

end Embryo.Radix
