import Embryo.Radix.Insert

namespace Embryo.Radix

open Embryo.Machine

def sizeofRadixNode : Nat := 24

def ulong (x : Int) : Nat := (x % 2^32).toNat

def rnRefines (m n : Caddr) : Bool :=
  let longer : Int := (n 0).toNat - (m 0).toNat
  let lim2 := (n 0).toNat
  let lim := if longer > 0 then (m 0).toNat else lim2
  let both := List.range' 1 (lim - 1)
  if both.any fun i => n i &&& ~~~ m i ≠ 0 then false
  else if (List.range' (max 1 lim) (lim2 - max 1 lim)).any fun i => n i ≠ 0 then false
  else
    let isequal := both.all fun i => n i = m i
    if isequal ∧ longer < 0 ∧ (List.range' (max 1 lim) (-longer).toNat).any fun i => m i ≠ 0 then true
    else ¬ isequal

def rnLexobetter (m n : Caddr) : Bool :=
  if m 0 > n 0 then true
  else m 0 = n 0 ∧ (List.range' 1 (n 0).toNat).any fun i => m i > n i

/-- The trees, the variables of `radix.c`, and what `kmem_malloc` returns for the entries of mask lists. -/
structure Tables extends RadixStore where
  maskTop : Nat
  maxkeylen : Nat
  addrmaskkey : Nat → UInt8
  lastZeros : Nat
  given : List Nat

def normalChars : List UInt8 := [0x00, 0x80, 0xc0, 0xe0, 0xf0, 0xf8, 0xfc, 0xfe, 0xff]

def maskIndex (netmask : Caddr) (skip mlen : Nat) : Bool × Nat :=
  let ones := (List.range' skip (mlen - skip)).takeWhile fun i => netmask i = 0xff
  let cp := skip + ones.length
  if cp = mlen then (true, cp * 8)
  else
    let b := ((List.range 8).takeWhile fun k => (0x80 >>> UInt8.ofNat k) &&& netmask cp ≠ 0).length
    (decide (netmask cp = normalChars.getD b 0 ∧ cp = mlen - 1), b + cp * 8)

/-- The key is put together in `rn_addrmaskkey`: the buffer, and the lengths before and after
    trailing zeros are cut off. -/
def cutMask (T : Tables) (netmask : Caddr) (skip : Nat) : (Nat → UInt8) × Nat × Nat :=
  let mlen0 := min (netmask 0).toNat T.maxkeylen
  let key := fun i => if 1 ≤ i ∧ i < skip then T.ones i else if skip ≤ i ∧ i < mlen0 then netmask i
    else T.addrmaskkey i
  (key, mlen0, mlen0 - ((List.range mlen0).reverse.takeWhile fun i => key i = 0).length)

/-- `rn_addmask`: the leaf of the mask, or `NULL`, and what `kmem_zmalloc` returns is `pair`. -/
def rnAddmask (fuel : Nat) (T : Tables) (netmask : Caddr) (search : Bool) (skip pair : Nat) :
    Option (Nat × Tables) :=
  let skip := if skip = 0 then 1 else skip
  let root := T.maskTop - sizeofRadixNode
  if min (netmask 0).toNat T.maxkeylen ≤ skip then some (root, T)
  else
    let (key, mlen0, mlen) := cutMask T netmask skip
    if mlen ≤ skip then
      some (root,
        { T with addrmaskkey := key, lastZeros := if mlen0 ≥ T.lastZeros then mlen else T.lastZeros })
    else
      let key := fun i => if mlen0 ≤ i ∧ i < T.lastZeros then 0 else key i
      let key := Function.update key 0 (UInt8.ofNat mlen)
      let T := { T with addrmaskkey := key, lastZeros := mlen }
      match rnSearch fuel T.nodes ⟨0, key⟩ T.maskTop with
      | none => none
      | some t =>
        match (T.nodes t).leaf? with
        | none => none
        | some leaf =>
          let found := (List.range mlen).all fun i => key i = leaf.key i
          if found then some (t, T)
          else if search then some (0, T)
          else if pair = 0 then some (0, T)
          else
            let rnm := pair
            let cp : Caddr := ⟨pair + 2 * sizeofRadixNode, fun i => if i < mlen then key i else 0⟩
            let nodes := Function.update (Function.update T.nodes rnm RadixNode.blank)
              (rnm + sizeofRadixNode) RadixNode.blank
            match rnInsert fuel nodes cp T.maskTop rnm (rnm + sizeofRadixNode) with
            | none => none
            | some (rnm, true, nodes) => some (rnm, { T with nodes })
            | some (rnm, false, nodes) =>
              let (isnormal, b) := maskIndex cp skip mlen
              let n := nodes rnm
              some (rnm, { T with
                nodes := Function.update nodes rnm { n with
                  b := -1 - b
                  flags := { n.flags with normal := n.flags.normal || isnormal } } })

def rnNewRadixMask (T : Tables) (t next : Nat) : Option (Nat × Tables) :=
  match T.given with
  | [] => some (0, T)
  | rm :: given =>
    let T := { T with given }
    let n := T.nodes t
    match n.leaf? with
    | none => none
    | some leaf =>
      if rm = 0 then some (0, T)
      else
        match (if n.flags.normal then some (RmU.leaf t) else leaf.mask.map RmU.mask) with
        | none => none
        | some u => some (rm, { T with
            masks := Function.update T.masks rm ⟨UInt16.ofNat (n.b % 2^16).toNat, n.flags, next, u, 0⟩
            nodes := Function.update T.nodes t { n with masklist := rm } })

inductive Rmp where
  | masklist (a : Nat)
  | next (rm : Nat)

def Rmp.get (T : Tables) : Rmp → Nat
  | .masklist a => (T.nodes a).masklist
  | .next rm => (T.masks rm).next

def Rmp.set (T : Tables) (entry : Nat) : Rmp → Tables
  | .masklist a => { T with nodes := Function.update T.nodes a { T.nodes a with masklist := entry } }
  | .next rm => { T with masks := Function.update T.masks rm { T.masks rm with next := entry } }

/-- `(*(uchar *)m == *(uchar *)n) && !bcmp(m, n, *(uchar *)n)`. -/
def sameMask (m n : Caddr) : Bool := m 0 = n 0 ∧ (List.range (n 0).toNat).all fun i => m i = n i

def better (new : Caddr) (rnB : Int) (old : Caddr) (b : Int) : Bool :=
  ulong rnB < ulong b ∨ rnRefines new old ∨ rnLexobetter new old

/-- How the walk of the leaves of one key ends: at a mask that is there, at one that is `NULL` where
    its bytes are read, or behind `tt` and before `t`. -/
inductive Spot where
  | same
  | nullMask
  | between (tt t : Nat)

def chainPass (nodes : Nat → RadixNode) (netmask : Option Caddr) (rnB : Int) (s : Nat × Nat) :
    Option (Pass (Nat × Nat) Spot) :=
  let (tt, t) := s
  if t = 0 then some (.leave (.between tt 0))
  else
    match (nodes t).leaf? with
    | none => none
    | some leaf =>
      if leaf.mask.map Caddr.addr = netmask.map Caddr.addr then some (.leave .same)
      else
        match leaf.mask, netmask with
        | some old, some new =>
          if sameMask old new then some (.leave .same)
          else if better new rnB old (nodes t).b then some (.leave (.between tt t))
          else some (.again (t, leaf.dupedkey))
        | _, _ => some (.leave .nullMask)

/-- The new leaf `t` is put into the chain of `head`, which it becomes the head of when it goes before it. -/
def enchain (nodes : Nat → RadixNode) (v : Caddr) (head tt next t : Nat) : Option (Nat × (Nat → RadixNode)) :=
  match (nodes t).leaf?, (nodes tt).leaf? with
  | some new, some before =>
    let flags : RnFlags := ⟨false, true, false⟩
    if next = head then
      let p := (nodes head).p
      match (nodes p).node? with
      | none => none
      | some u =>
        let nodes := Function.update nodes p { nodes p with
          u := .node (if u.l = head then { u with l := t } else { u with r := t }) }
        some (t, Function.update nodes t { nodes t with
          p, b := -1, flags, u := .leaf { new with dupedkey := head, key := v } })
    else
      let nodes := Function.update nodes t { nodes t with
        b := -1, flags, u := .leaf { new with dupedkey := before.dupedkey, key := v } }
      some (head, Function.update nodes tt { nodes tt with u := .leaf { before with dupedkey := t } })
  | _, _ => none

def setMask (nodes : Nat → RadixNode) (t : Nat) (netmask : Caddr) (rnm : RadixNode) :
    Option (Nat → RadixNode) :=
  (nodes t).leaf?.map fun leaf => Function.update nodes t { nodes t with
    b := rnm.b
    u := .leaf { leaf with mask := some netmask }
    flags := { (nodes t).flags with normal := (nodes t).flags.normal || rnm.flags.normal } }

def siblingPass (rnB : Nat) (s : Tables × Nat × Rmp) : Option (Pass (Tables × Nat × Rmp) Tables) :=
  let (T, x, rmp) := s
  if x = 0 then some (.leave T)
  else
    match (T.nodes x).leaf? with
    | none => none
    | some leaf =>
      if leaf.mask.isSome ∧ (T.nodes x).masklist = 0 ∧ ulong (T.nodes x).b ≥ rnB then
        match rnNewRadixMask T x 0 with
        | none => none
        | some (rm, T) => some (.again (Rmp.set T rm rmp, leaf.dupedkey, if rm = 0 then rmp else .next rm))
      else some (.again (T, leaf.dupedkey, rmp))

/-- `if(rm->rm_b >= rn_b) break;` along a list of masks. -/
def cutPass (T : Tables) (rnB : Nat) (rmp : Rmp) : Option (Pass Rmp (Rmp × Nat)) :=
  let rm := rmp.get T
  some (if rm = 0 ∨ (T.masks rm).b.toNat ≥ rnB then .leave (rmp, rm) else .again (.next rm))

def promote (fuel : Nat) (T : Tables) (t p : Nat) : Option Tables :=
  match (T.nodes p).node? with
  | none => none
  | some u =>
    let rnB := ulong (-1 - (T.nodes p).b)
    let x := if u.l = t then u.r else u.l
    if (T.nodes x).b < 0 then loop (siblingPass rnB) fuel (T, x, .masklist p)
    else if (T.nodes x).masklist ≠ 0 then
      match loop (cutPass T rnB) fuel (.masklist x) with
      | none => none
      | some (rmp, rm) =>
        let T := Rmp.set T rm (.masklist p)
        some (Rmp.set T 0 rmp)
    else some T

/-- `do { x = p; p = p->rn_p; } while(b <= p->rn_b && x != top)`. -/
def climbPass (nodes : Nat → RadixNode) (b top : Nat) (x : Nat) : Option (Pass Nat Nat) :=
  let p := (nodes x).p
  some (if b ≤ ulong (nodes p).b ∧ x ≠ top then .again p else .leave x)

/-- How the walk of a list of masks ends: with nothing to do, at an entry of the same mask, at a
    `NULL` mask, or at a place. -/
inductive Entry where
  | keep
  | shared (rm : Nat)
  | nullMask
  | put (rmp : Rmp)

def entryPass (T : Tables) (t : Nat) (netmask : Caddr) (rnB : Nat) (rmp : Rmp) : Option (Pass Rmp Entry) :=
  let rm := rmp.get T
  if rm = 0 then some (.leave (.put rmp))
  else
    let m := T.masks rm
    if m.b.toNat < rnB then some (.again (.next rm))
    else if m.b.toNat > rnB then some (.leave (.put rmp))
    else if m.flags.normal ∧ (T.nodes t).flags.normal then some (.leave .keep)
    else
      match (match m.u with
        | .leaf leaf => (T.nodes leaf).leaf?.map RnLeaf.mask
        | .mask mask => some (some mask)) with
      | none => none
      | some none => some (.leave .nullMask)
      | some (some rmmask) =>
        if rmmask.addr = netmask.addr then some (.leave (.shared rm))
        else if sameMask rmmask netmask then some (.leave .keep)
        else if rnRefines netmask rmmask ∨ rnLexobetter netmask rmmask then some (.leave (.put rmp))
        else some (.again (.next rm))

/-- What `rn_addroute` comes to: the bytes of a mask are read where it is `NULL`, or it returns a
    node, or `NULL`. -/
inductive Added where
  | nullMask
  | done (rn : Nat) (T : Tables)

def listMask (fuel : Nat) (T : Tables) (t p top : Nat) (netmask : Caddr) (b : Nat) : Option Added :=
  match loop (climbPass T.nodes b top) fuel p with
  | none => none
  | some x =>
    match loop (entryPass T t netmask (ulong (T.nodes t).b)) fuel (.masklist x) with
    | none => none
    | some .keep => some (.done t T)
    | some .nullMask => some .nullMask
    | some (.shared rm) => some (.done t { T with
        masks := Function.update T.masks rm { T.masks rm with refcnt := (T.masks rm).refcnt + 1 }
        nodes := Function.update T.nodes t { T.nodes t with masklist := rm } })
    | some (.put rmp) =>
      match rnNewRadixMask T t (rmp.get T) with
      | none => none
      | some (rm, T) => some (.done t (Rmp.set T rm rmp))

def routed (fuel : Nat) (T : Tables) (t p top : Nat) (isduped : Bool)
    (netmask : Option (Caddr × RadixNode)) : Option Added :=
  match (match netmask with
    | none => some T.nodes
    | some (netmask, rnm) => setMask T.nodes t netmask rnm) with
  | none => none
  | some nodes =>
    match (if isduped then some { T with nodes } else promote fuel { T with nodes } t p) with
    | none => none
    | some T =>
      match netmask with
      | none => some (.done t T)
      | some (netmask, rnm) =>
        let b := ulong (-1 - rnm.b)
        if b > ulong (T.nodes p).b then some (.done t T) else listMask fuel T t p top netmask b

def addrouteMasked (fuel : Nat) (T : Tables) (v : Caddr) (treetop t tt : Nat)
    (netmask : Option (Caddr × RadixNode)) : Option Added :=
  match rnInsert fuel T.nodes v treetop t tt with
  | none => none
  | some (t, false, nodes) => routed fuel { T with nodes } t (nodes t).p treetop false netmask
  | some (head, true, nodes) =>
    match loop (chainPass nodes (netmask.map Prod.fst) ((netmask.map fun n => n.2.b).getD 0)) fuel
        (head, head) with
    | none => none
    | some .same => some (.done 0 { T with nodes })
    | some .nullMask => some .nullMask
    | some (.between tt next) =>
      match enchain nodes v head tt next t with
      | none => none
      | some (head, nodes) => routed fuel { T with nodes } t (nodes head).p treetop true netmask

def rnAddroute (fuel : Nat) (T : Tables) (v : Caddr) (m : Option Caddr) (treetop t tt pair : Nat) :
    Option Added :=
  match m with
  | none => addrouteMasked fuel T v treetop t tt none
  | some netmask =>
    match (T.nodes treetop).node? with
    | none => none
    | some top =>
      match rnAddmask fuel T netmask false top.off pair with
      | none => none
      | some (rnm, T) =>
        if rnm = 0 then some (.done 0 T)
        else
          match (T.nodes rnm).leaf? with
          | none => none
          | some leaf => addrouteMasked fuel T v treetop t tt (some (leaf.key, T.nodes rnm))

def rnInithead (T : Tables) (base : Nat) (off : Nat) : Tables :=
  let l := base
  let t := base + sizeofRadixNode
  let r := base + 2 * sizeofRadixNode
  let flags : RnFlags := ⟨true, true, false⟩
  let side := fun key : Caddr => (⟨0, t, -1 - off, 0, flags, .leaf ⟨key, none, 0⟩⟩ : RadixNode)
  let nodes := Function.update T.nodes t ⟨0, t, off, 0x80 >>> UInt8.ofNat (off % 8), flags,
    .node ⟨off / 8, l, r⟩⟩
  { T with nodes := Function.update (Function.update nodes l (side T.zeros)) r (side T.ones) }

end Embryo.Radix
