import Embryo.Machine.Maximal
import Embryo.Net.Model
import Embryo.Radix.Route

namespace Embryo.Net

open Embryo.Machine Embryo.Radix

def afInet : UInt8 := 2
def afMax : Nat := 31

/-- An `ifaddr`, with its own address and that of its interface. `ifa_broadaddr` is the other name
    of `ifa_dstaddr`. -/
structure Ifaddr where
  ptr : Nat
  addr : Caddr
  dstaddr : Option Caddr
  netmask : Option Caddr
  ifp : Nat

structure Addressed where
  broadcast : Bool
  point2point : Bool
  addrlist : List Ifaddr

structure Interfaces where
  ifnetlist : List Nat
  ifnet : Nat → Addressed
  ifnetAddrs : List Ifaddr

def Caddr.len (c : Caddr) : Nat := (c 0).toNat

def equal (s1 s2 : Caddr) : Bool := (List.range (Caddr.len s1)).all fun i => s1 i = s2 i

def sameNetwork (addr own mask : Caddr) : Bool :=
  (List.range' 2 (Caddr.len mask - 2)).all fun i => (addr i ^^^ own i) &&& mask i = 0

/-- The same loop in `ifaof_ifpforaddr`, where a difference in the last byte of the mask leaves it
    with `cp2 == cplim` as well. -/
def reachesLimit (addr own mask : Caddr) : Bool :=
  2 ≤ Caddr.len mask ∧ (List.range' 2 (Caddr.len mask - 3)).all fun i => (addr i ^^^ own i) &&& mask i = 0

def ifaofIfpforaddr (N : Interfaces) (addr : Caddr) (ifp : Nat) : Option Ifaddr :=
  if (addr 1).toNat > afMax then none
  else
    (N.ifnet ifp).addrlist.find? fun ifa =>
      ifa.addr 1 == addr 1 &&
        match ifa.netmask with
        | none => equal addr ifa.addr || ifa.dstaddr.any (equal addr)
        | some mask => reachesLimit addr ifa.addr mask

def ifaIfwithdstaddr (N : Interfaces) (addr : Caddr) : Option Ifaddr :=
  N.ifnetlist.findSome? fun ifp =>
    if (N.ifnet ifp).point2point then
      (N.ifnet ifp).addrlist.find? fun ifa => ifa.addr 1 = addr 1 ∧ ifa.dstaddr.any (equal addr)
    else none

/-- Whether `ifa_ifwithnet` looks at an address: it has a netmask, and its network has `addr` in it. -/
def withNet (addr : Caddr) (ifa : Ifaddr) : Bool :=
  ifa.addr 1 = addr 1 ∧ ifa.netmask.any (sameNetwork addr ifa.addr)

def refines (ifa maybe : Ifaddr) : Bool :=
  match ifa.netmask, maybe.netmask with
  | some m, some n => rnRefines m n
  | _, _ => false

/-- The body of the inner loop of `ifa_ifwithnet`. -/
def netStep (addr : Caddr) (maybe : Option Ifaddr) (ifa : Ifaddr) : Option Ifaddr :=
  if ¬ withNet addr ifa then maybe
  else
    match maybe with
    | none => some ifa
    | some best => if refines ifa best then some ifa else some best

def sdlIndex (addr : Caddr) : Nat := (addr 2).toNat + 256 * (addr 3).toNat

def ifaIfwithnet (N : Interfaces) (addr : Caddr) : Option Ifaddr :=
  match if (addr 1).toNat = afLink then N.ifnetAddrs[sdlIndex addr]? else none with
  | some ifa => some ifa
  | none => N.ifnetlist.foldl (fun maybe ifp => (N.ifnet ifp).addrlist.foldl (netStep addr) maybe) none

def ifaIfwithaddr (N : Interfaces) (addr : Caddr) : Option Ifaddr :=
  N.ifnetlist.findSome? fun ifp =>
    (N.ifnet ifp).addrlist.find? fun ifa =>
      ifa.addr 1 = addr 1 ∧ ifa.dstaddr.isSome ∧
        (equal addr ifa.addr ∨ ((N.ifnet ifp).broadcast ∧ ifa.dstaddr.any fun broad => equal broad addr))

def maskByte (m : Caddr) (i : Nat) : UInt8 := if i < Caddr.len m then m i else 0

def Contains (own mask addr : Caddr) : Prop := ∀ i ≥ 2, (addr i ^^^ own i) &&& maskByte mask i = 0

def Narrower (k : Nat) (m n : Caddr) : Prop :=
  (∀ i ≥ k, maskByte n i &&& ~~~ maskByte m i = 0) ∧ ∃ i ≥ k, maskByte n i ≠ maskByte m i

def Interfaces.addresses (N : Interfaces) : List Ifaddr :=
  N.ifnetlist.flatMap fun ifp => (N.ifnet ifp).addrlist

/-- A network that `addr` can be in: it belongs to an address of an interface, of the family of
    `addr` and with a netmask. -/
structure Configured (N : Interfaces) (addr : Caddr) (ifa : Ifaddr) (mask : Caddr) : Prop where
  listed : ifa ∈ N.addresses
  family : ifa.addr 1 = addr 1
  masked : ifa.netmask = some mask

theorem byte_sub_iff (a b : UInt8) : a &&& ~~~b = 0 ↔ ∀ i, a.toBitVec.getLsbD i → b.toBitVec.getLsbD i := by
  rw [← UInt8.toBitVec_inj]
  constructor
  · intro none i one
    have bit := congrArg (·.getLsbD i) none
    have small : i < 8 := BitVec.lt_of_getLsbD one
    simpa [one, small] using bit
  · intro sub
    apply BitVec.eq_of_getLsbD_eq
    intro i small
    have bit := sub i
    simp [small]
    exact bit

theorem sub_trans {a b c : UInt8} (first : a &&& ~~~b = 0) (second : b &&& ~~~c = 0) : a &&& ~~~c = 0 := by
  rw [byte_sub_iff] at first second ⊢
  exact fun i one => second i (first i one)

theorem sub_antisymm {a b : UInt8} (first : a &&& ~~~b = 0) (second : b &&& ~~~a = 0) : a = b := by
  rw [byte_sub_iff] at first second
  apply UInt8.toBitVec_inj.mp
  apply BitVec.eq_of_getLsbD_eq
  intro i _
  exact Bool.eq_iff_iff.mpr ⟨first i, second i⟩

theorem covers_iff (m n : Caddr) :
    (∀ i ≥ 1, maskByte n i &&& ~~~maskByte m i = 0) ↔
      (∀ i, 1 ≤ i → i < min (Caddr.len n) (Caddr.len m) → n i &&& ~~~m i = 0) ∧
        ∀ i, max 1 (Caddr.len m) ≤ i → i < Caddr.len n → n i = 0 := by
  constructor
  · intro covers
    constructor
    · intro i low both
      have here := covers i low
      rw [maskByte, maskByte, if_pos (by omega), if_pos (by omega)] at here
      exact here
    · intro i behind inside
      have here := covers i (by omega)
      rw [maskByte, maskByte, if_pos inside, if_neg (by omega)] at here
      simpa using here
  · rintro ⟨both, behind⟩ i low
    unfold maskByte
    by_cases insideN : i < Caddr.len n
    · rw [if_pos insideN]
      by_cases insideM : i < Caddr.len m
      · rw [if_pos insideM]
        exact both i low (by omega)
      · rw [if_neg insideM, behind i (by omega) insideN]
        rfl
    · rw [if_neg insideN, UInt8.zero_and]

theorem differs_iff {m n : Caddr} (covers : ∀ i ≥ 1, maskByte n i &&& ~~~maskByte m i = 0) :
    (∃ i ≥ 1, maskByte n i ≠ maskByte m i) ↔
      (∃ i, 1 ≤ i ∧ i < min (Caddr.len n) (Caddr.len m) ∧ n i ≠ m i) ∨
        ∃ i, max 1 (Caddr.len n) ≤ i ∧ i < Caddr.len m ∧ m i ≠ 0 := by
  have behind := ((covers_iff m n).mp covers).2
  constructor
  · rintro ⟨i, low, differs⟩
    unfold maskByte at differs
    by_cases insideN : i < Caddr.len n <;> by_cases insideM : i < Caddr.len m
    · rw [if_pos insideN, if_pos insideM] at differs
      exact .inl ⟨i, low, by omega, differs⟩
    · rw [if_pos insideN, if_neg insideM] at differs
      exact absurd (behind i (by omega) insideN) differs
    · rw [if_neg insideN, if_pos insideM] at differs
      exact .inr ⟨i, by omega, insideM, differs.symm⟩
    · rw [if_neg insideN, if_neg insideM] at differs
      exact absurd rfl differs
  · rintro (⟨i, low, both, differs⟩ | ⟨i, past, insideM, one⟩)
    · refine ⟨i, low, ?_⟩
      rw [maskByte, maskByte, if_pos (by omega), if_pos (by omega)]
      exact differs
    · refine ⟨i, by omega, ?_⟩
      rw [maskByte, maskByte, if_neg (by omega), if_pos insideM]
      exact one.symm

theorem any_range' (s n : Nat) (p : Nat → Prop) [DecidablePred p] :
    ((List.range' s n).any fun i => p i) = true ↔ ∃ i, s ≤ i ∧ i < s + n ∧ p i := by
  simp only [List.any_eq_true, List.mem_range'_1, decide_eq_true_eq, and_assoc]

theorem all_range' (s n : Nat) (p : Nat → Prop) [DecidablePred p] :
    ((List.range' s n).all fun i => p i) = true ↔ ∀ i, s ≤ i → i < s + n → p i := by
  simp only [List.all_eq_true, List.mem_range'_1, decide_eq_true_eq, and_imp]

theorem rnRefines_loops (m n : Caddr) :
    rnRefines m n = true ↔
      (∀ i, 1 ≤ i → i < min (Caddr.len n) (Caddr.len m) → n i &&& ~~~m i = 0) ∧
        (∀ i, max 1 (min (Caddr.len n) (Caddr.len m)) ≤ i → i < Caddr.len n → n i = 0) ∧
        ((∃ i, 1 ≤ i ∧ i < min (Caddr.len n) (Caddr.len m) ∧ n i ≠ m i) ∨
          Caddr.len n < Caddr.len m ∧
            ∃ i, max 1 (Caddr.len n) ≤ i ∧ i < max 1 (Caddr.len n) + (Caddr.len m - Caddr.len n) ∧
              m i ≠ 0) := by
  have lim : (if ((n 0).toNat : Int) - (m 0).toNat > 0 then (m 0).toNat else (n 0).toNat) =
      min (Caddr.len n) (Caddr.len m) := by
    unfold Caddr.len
    split <;> omega
  have negative : (((n 0).toNat : Int) - (m 0).toNat < 0) ↔ Caddr.len n < Caddr.len m := by
    unfold Caddr.len
    omega
  have past : (-(((n 0).toNat : Int) - (m 0).toNat)).toNat = Caddr.len m - Caddr.len n := by
    unfold Caddr.len
    omega
  unfold rnRefines
  simp only [lim, negative, past]
  split
  · next both =>
    rw [any_range'] at both
    obtain ⟨i, low, high, one⟩ := both
    have inside : i < min (Caddr.len n) (Caddr.len m) := by omega
    exact iff_of_false Bool.false_ne_true fun ⟨sub, _⟩ => one (sub i low inside)
  next both =>
  rw [any_range'] at both
  split
  · next behind =>
    rw [any_range'] at behind
    obtain ⟨i, low, high, one⟩ := behind
    have inside : i < Caddr.len n := by
      unfold Caddr.len at *
      omega
    exact iff_of_false Bool.false_ne_true fun ⟨_, zero, _⟩ => one (zero i low inside)
  next behind =>
  rw [any_range'] at behind
  have sub : ∀ i, 1 ≤ i → i < min (Caddr.len n) (Caddr.len m) → n i &&& ~~~m i = 0 :=
    fun i low high => by_contra fun one => both ⟨i, low, by omega, one⟩
  have zero : ∀ i, max 1 (min (Caddr.len n) (Caddr.len m)) ≤ i → i < Caddr.len n → n i = 0 :=
    fun i low high => by_contra fun one => behind ⟨i, low, by unfold Caddr.len at *; omega, one⟩
  have longer : Caddr.len n < Caddr.len m → max 1 (min (Caddr.len n) (Caddr.len m)) =
    max 1 (Caddr.len n) := by omega
  split
  · next found =>
    obtain ⟨_, short, last⟩ := found
    rw [longer short, any_range'] at last
    exact iff_of_true rfl ⟨sub, zero, .inr ⟨short, last⟩⟩
  · next found =>
    rw [decide_eq_true_eq, all_range']
    constructor
    · intro differs
      by_contra none
      apply differs
      intro i low high
      by_contra here
      exact none ⟨sub, zero, .inl ⟨i, low, by omega, here⟩⟩
    · rintro ⟨_, _, ⟨i, low, high, differs⟩ | ⟨short, last⟩⟩ equal
      · exact differs (equal i low (by omega))
      · rw [← longer short, ← any_range'] at last
        exact found ⟨(all_range' _ _ _).mpr equal, short, last⟩

def Padded (m n : Caddr) : Prop := Caddr.len n = 0 → m (Caddr.len m) = 0

def Overread (m n : Caddr) : Prop := Caddr.len n = 0 ∧ 0 < Caddr.len m ∧ m (Caddr.len m) ≠ 0

theorem tail_iff (m n : Caddr) :
    (Caddr.len n < Caddr.len m ∧
        ∃ i, max 1 (Caddr.len n) ≤ i ∧ i < max 1 (Caddr.len n) + (Caddr.len m - Caddr.len n) ∧ m i ≠ 0) ↔
      (∃ i, max 1 (Caddr.len n) ≤ i ∧ i < Caddr.len m ∧ m i ≠ 0) ∨ Overread m n := by
  constructor
  · rintro ⟨_, i, past, last, one⟩
    by_cases inside : i < Caddr.len m
    · exact .inl ⟨i, past, inside, one⟩
    · rw [show i = Caddr.len m by omega] at one
      exact .inr ⟨by omega, by omega, one⟩
  · rintro (⟨i, past, inside, one⟩ | ⟨empty, bytes, one⟩)
    · exact ⟨by omega, i, past, by omega, one⟩
    · exact ⟨by omega, Caddr.len m, by omega, by omega, one⟩

theorem rnRefines_cases (m n : Caddr) : rnRefines m n = true ↔ Narrower 1 m n ∨ Overread m n := by
  have same : (∀ i, max 1 (min (Caddr.len n) (Caddr.len m)) ≤ i → i < Caddr.len n → n i = 0) ↔
      ∀ i, max 1 (Caddr.len m) ≤ i → i < Caddr.len n → n i = 0 := by
    constructor <;> exact fun zero i past inside => zero i (by omega) inside
  have covered : Overread m n → ∀ i ≥ 1, maskByte n i &&& ~~~maskByte m i = 0 := by
    rintro ⟨empty, _⟩ i _
    rw [show maskByte n i = 0 from if_neg (by omega), UInt8.zero_and]
  rw [rnRefines_loops, same, tail_iff, ← and_assoc, ← covers_iff, ← or_assoc, and_or_left]
  constructor
  · rintro (⟨covers, differs⟩ | ⟨_, behind⟩)
    · exact .inl ⟨covers, (differs_iff covers).mpr differs⟩
    · exact .inr behind
  · rintro (⟨covers, differs⟩ | behind)
    · exact .inl ⟨covers, (differs_iff covers).mp differs⟩
    · exact .inr ⟨covered behind, behind⟩

theorem rnRefines_iff {m n : Caddr} (padded : Padded m n) : rnRefines m n = true ↔ Narrower 1 m n := by
  rw [rnRefines_cases, or_iff_left]
  rintro ⟨empty, _, one⟩
  exact one (padded empty)

theorem Narrower.trans {k : Nat} {m n o : Caddr} (first : Narrower k m n)
    (second : Narrower k n o) : Narrower k m o := by
  refine ⟨fun i low => sub_trans (second.1 i low) (first.1 i low), ?_⟩
  obtain ⟨i, low, differs⟩ := second.2
  refine ⟨i, low, fun same => differs ?_⟩
  have back := first.1 i low
  rw [← same] at back
  exact sub_antisymm (second.1 i low) back

theorem maskByte_empty {m : Caddr} (empty : Caddr.len m = 0) (i : Nat) : maskByte m i = 0 := if_neg (by omega)

theorem Narrower.empty {m n o : Caddr} (narrower : Narrower 1 m n) (empty : Caddr.len o = 0) :
    Narrower 1 m o := by
  obtain ⟨sub, i, low, differs⟩ := narrower
  refine ⟨fun k _ => by rw [maskByte_empty empty, UInt8.zero_and], i, low, ?_⟩
  rw [maskByte_empty empty]
  intro none
  apply differs
  have here := sub i low
  rw [← none] at here ⊢
  simpa using here

theorem Narrower.ones {m n : Caddr} (narrower : Narrower 1 m n) : Caddr.len m ≠ 0 := by
  intro empty
  obtain ⟨sub, i, low, differs⟩ := narrower
  apply differs
  have here := sub i low
  rw [maskByte_empty empty] at here ⊢
  simpa using here

theorem rnRefines_trans {m n o : Caddr} (first : rnRefines m n = true)
    (second : rnRefines n o = true) : rnRefines m o = true := by
  rw [rnRefines_cases] at first second ⊢
  rcases first with first | ⟨empty, _⟩
  · rcases second with second | ⟨empty, _⟩
    · exact .inl (first.trans second)
    · exact .inl (first.empty empty)
  · rcases second with second | ⟨_, bytes, _⟩
    · exact absurd empty second.ones
    · omega

theorem rnRefines_irrefl (m : Caddr) : rnRefines m m = false := by
  rw [← Bool.not_eq_true, rnRefines_loops]
  rintro ⟨_, _, ⟨_, _, _, differs⟩ | ⟨shorter, _⟩⟩
  · exact differs rfl
  · exact Nat.lt_irrefl _ shorter

theorem sameNetwork_iff {addr own mask : Caddr} :
    sameNetwork addr own mask = true ↔ Contains own mask addr := by
  unfold sameNetwork
  rw [all_range']
  constructor
  · intro same i low
    unfold maskByte
    split
    · next inside => exact same i low (by omega)
    · exact UInt8.and_zero
  · intro contains i low high
    have here := contains i low
    rw [maskByte, if_pos (by omega)] at here
    exact here

theorem ifaIfwithnet_eq {N : Interfaces} {addr : Caddr} (inet : addr 1 = afInet) :
    ifaIfwithnet N addr = (N.addresses.filter (withNet addr)).foldl (keepBest refines) none := by
  have step : netStep addr = fun maybe ifa => if withNet addr ifa = true then
      keepBest refines maybe ifa else maybe := by
    funext maybe ifa
    simp only [netStep, keepBest, ite_not]
    cases maybe <;> rfl
  unfold ifaIfwithnet
  rw [inet, if_neg (by decide), List.foldl_filter, Interfaces.addresses, List.foldl_flatMap, step]

theorem mem_candidates {N : Interfaces} {addr : Caddr} {ifa : Ifaddr} :
    ifa ∈ N.addresses.filter (withNet addr) ↔ ∃ mask, Configured N addr ifa mask ∧
      Contains ifa.addr mask addr := by
  rw [List.mem_filter]
  constructor
  · rintro ⟨listed, net⟩
    simp only [withNet, decide_eq_true_eq, Option.any_eq_true] at net
    obtain ⟨family, mask, masked, same⟩ := net
    exact ⟨mask, ⟨listed, family, masked⟩, sameNetwork_iff.mp same⟩
  · rintro ⟨mask, configured, contains⟩
    have net : withNet addr ifa = true := by
      simp only [withNet, decide_eq_true_eq, Option.any_eq_true]
      exact ⟨configured.family, mask, configured.masked, sameNetwork_iff.mpr contains⟩
    exact ⟨configured.listed, net⟩

theorem ifaIfwithnet_none_iff {N : Interfaces} {addr : Caddr} (inet : addr 1 = afInet) :
    ifaIfwithnet N addr = none ↔ ∀ ifa mask, Configured N addr ifa mask → ¬ Contains ifa.addr mask addr := by
  rw [ifaIfwithnet_eq inet]
  cases candidates : N.addresses.filter (withNet addr) with
  | nil =>
    apply iff_of_true rfl
    intro ifa mask configured contains
    have member := mem_candidates.mpr ⟨mask, configured, contains⟩
    rw [candidates] at member
    cases member
  | cons first rest =>
    have some := @foldl_keepBest_some Ifaddr refines rest first
    apply iff_of_false
    · intro missing
      rw [List.foldl_cons, keepBest] at missing
      rw [missing] at some
      cases some
    · intro outside
      have member : first ∈ N.addresses.filter (withNet addr) := candidates ▸ List.mem_cons_self
      obtain ⟨mask, configured, contains⟩ := mem_candidates.mp member
      exact outside first mask configured contains

theorem refines_irrefl (ifa : Ifaddr) : refines ifa ifa = false := by
  unfold refines
  cases ifa.netmask with
  | none => rfl
  | some m => exact rnRefines_irrefl m

theorem refines_masks {ifa maybe : Ifaddr} {m n : Caddr} (own : ifa.netmask = some m)
    (other : maybe.netmask = some n) :
    refines ifa maybe = rnRefines m n := by
  rw [refines, own, other]

theorem refines_trans (N : Interfaces) (addr : Caddr) :
    ∀ x ∈ N.addresses.filter (withNet addr), ∀ y ∈ N.addresses.filter (withNet addr),
      ∀ z ∈ N.addresses.filter (withNet addr), refines x y = true → refines y z = true →
        refines x z = true := by
  intro x inX y inY z inZ first second
  obtain ⟨m, atX, _⟩ := mem_candidates.mp inX
  obtain ⟨n, atY, _⟩ := mem_candidates.mp inY
  obtain ⟨o, atZ, _⟩ := mem_candidates.mp inZ
  rw [refines_masks atX.masked atY.masked] at first
  rw [refines_masks atY.masked atZ.masked] at second
  rw [refines_masks atX.masked atZ.masked]
  exact rnRefines_trans first second

theorem ifaIfwithnet_most_specific {N : Interfaces} {addr : Caddr} (inet : addr 1 = afInet) :
    (ifaIfwithnet N addr = none ↔ ∀ ifa mask, Configured N addr ifa mask → ¬ Contains ifa.addr mask addr) ∧
      ∀ ifa, ifaIfwithnet N addr = some ifa → ∃ mask, Configured N addr ifa mask ∧
        Contains ifa.addr mask addr ∧
        ∀ other mask', Configured N addr other mask' → Contains other.addr mask' addr →
          ¬ Narrower 1 mask' mask := by
  have kept : ∀ ifa, ifaIfwithnet N addr = some ifa →
      Maximal refines (N.addresses.filter (withNet addr)) ifa := by
    intro ifa found
    rw [ifaIfwithnet_eq inet] at found
    exact foldl_maximal refines_irrefl (refines_trans N addr) found
  constructor
  · exact ifaIfwithnet_none_iff inet
  · intro ifa found
    obtain ⟨mask, configured, contains⟩ := mem_candidates.mp (kept ifa found).mem
    refine ⟨mask, configured, contains, ?_⟩
    intro other mask' listed inside narrower
    have top := (kept ifa found).top other (mem_candidates.mpr ⟨mask', listed, inside⟩)
    rw [refines_masks listed.masked configured.masked, (rnRefines_cases _ _).mpr (.inl narrower)] at top
    cases top

def sockaddrAt (a : Nat) (bytes : List UInt8) : Caddr := ⟨a, fun i => bytes.getD i 0⟩

def twoNets : Interfaces :=
  ⟨[1, 2], fun ifp =>
    if ifp = 1 then
      ⟨true, false, [⟨10, sockaddrAt 100 [16, 2, 0, 0, 10, 0, 0, 1], none,
        some (sockaddrAt 200 [5, 0, 0, 0, 255]), 1⟩]⟩
    else ⟨true, false, [⟨20, sockaddrAt 300 [16, 2, 0, 0, 10, 0, 0, 2], none,
      some (sockaddrAt 400 [7, 0, 0, 0, 255, 255, 255]), 2⟩]⟩, []⟩

theorem twoNets_most_specific :
    (ifaIfwithnet twoNets (sockaddrAt 500 [16, 2, 0, 0, 10, 0, 0, 9])).map Ifaddr.ptr = some 20 ∧
      ((ifaIfwithnet twoNets (sockaddrAt 500 [16, 2, 0, 0, 10, 0, 0, 9]) = none ↔
          ∀ ifa mask, Configured twoNets (sockaddrAt 500 [16, 2, 0, 0, 10, 0, 0, 9]) ifa mask →
            ¬ Contains ifa.addr mask (sockaddrAt 500 [16, 2, 0, 0, 10, 0, 0, 9])) ∧
        ∀ ifa, ifaIfwithnet twoNets (sockaddrAt 500 [16, 2, 0, 0, 10, 0, 0, 9]) = some ifa →
          ∃ mask, Configured twoNets (sockaddrAt 500 [16, 2, 0, 0, 10, 0, 0, 9]) ifa mask ∧
            Contains ifa.addr mask (sockaddrAt 500 [16, 2, 0, 0, 10, 0, 0, 9]) ∧
            ∀ other mask', Configured twoNets (sockaddrAt 500 [16, 2, 0, 0, 10, 0, 0, 9]) other mask' →
              Contains other.addr mask' (sockaddrAt 500 [16, 2, 0, 0, 10, 0, 0, 9]) →
                ¬ Narrower 1 mask' mask) :=
  ⟨by decide, ifaIfwithnet_most_specific (by decide)⟩

end Embryo.Net
