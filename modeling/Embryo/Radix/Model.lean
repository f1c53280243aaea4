import Embryo.Machine.Loop

namespace Embryo.Radix

open Embryo.Machine

structure Caddr where
  addr : Nat
  bytes : Nat → UInt8

instance : CoeFun Caddr fun _ => Nat → UInt8 := ⟨Caddr.bytes⟩

structure RnFlags where
  root : Bool
  active : Bool
  normal : Bool
deriving DecidableEq

structure RnLeaf where
  key : Caddr
  mask : Option Caddr
  dupedkey : Nat

structure RnNode where
  off : Nat
  l : Nat
  r : Nat

inductive RnU where
  | leaf (u : RnLeaf)
  | node (u : RnNode)

structure RadixNode where
  masklist : Nat
  p : Nat
  b : Int
  bmask : UInt8
  flags : RnFlags
  u : RnU

inductive RmU where
  | mask (mask : Caddr)
  | leaf (leaf : Nat)

structure RadixMask where
  b : UInt16
  flags : RnFlags
  next : Nat
  u : RmU
  refcnt : Nat

/-- The nodes and the entries of mask lists by their addresses, where 0 is `NULL`, and `rn_zeros`
    and `rn_ones`. -/
structure RadixStore where
  nodes : Nat → RadixNode
  masks : Nat → RadixMask
  zeros : Caddr
  ones : Caddr

def RadixNode.leaf? (n : RadixNode) : Option RnLeaf :=
  match n.u with
  | .leaf u => some u
  | .node _ => none

def RadixNode.node? (n : RadixNode) : Option RnNode :=
  match n.u with
  | .leaf _ => none
  | .node u => some u

def descendPass (nodes : Nat → RadixNode) (right : Nat → UInt8 → Bool) (rn : Nat) : Option (Pass Nat Nat) :=
  if (nodes rn).b < 0 then some (.leave rn)
  else
    match (nodes rn).node? with
    | none => none
    | some u => some (.again (if right u.off (nodes rn).bmask then u.r else u.l))

def rnSearch (fuel : Nat) (nodes : Nat → RadixNode) (v : Caddr) (top : Nat) : Option Nat :=
  loop (descendPass nodes fun off bmask => v off &&& bmask ≠ 0) fuel top

def rnSearchMask (fuel : Nat) (nodes : Nat → RadixNode) (v m : Caddr) (top : Nat) : Option Nat :=
  loop (descendPass nodes fun off bmask => v off &&& bmask ≠ 0 ∧ m off &&& bmask ≠ 0) fuel top

def setLeaf (nodes : Nat → RadixNode) (rn : Nat) (u : RnLeaf) : Nat → RadixNode :=
  Function.update nodes rn { nodes rn with u := .leaf u }

end Embryo.Radix
