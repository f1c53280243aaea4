import Embryo.Radix.Fresh
import Embryo.Radix.Rekey
import Embryo.Route.Model

namespace Embryo.Route

open Embryo.Machine
open Embryo.Radix

variable {E : Env} {w w' : Routes} {rt new old glen dlen : Nat} {gate : Nat → UInt8}

theorem roundup_eq {x : Nat} (positive : x ≠ 0) (short : x < 256) : roundup x = (x + 3) / 4 * 4 := by
  have all : ∀ y < 255, roundup (y + 1) = (y + 4) / 4 * 4 := by decide +kernel
  obtain ⟨y, rfl⟩ := Nat.exists_eq_succ_of_ne_zero positive
  exact all y (by omega)

section Places

attribute [local irreducible] roundup

/-- What `rt_setgate` does to a route whose packets need no other route, from where the place is found. -/
structure Setgate (w w' : Routes) (rt new : Nat) (r : Rtentry) (heap : Heap) : Prop where
  heap : w'.heap = heap
  route : w'.rts rt = r
  same : w'.ifaddrs = w.ifaddrs ∧ w'.ifnets = w.ifnets
  tables : ∃ leaf, (w.tables.nodes rt).leaf? = some leaf ∧
    w'.tables = { w.tables with nodes := setLeaf w.tables.nodes rt { leaf with key := w'.caddr new } }

theorem setgateEnd_spec {ok : Bool} (direct : (w.rts rt).flags.gateway = false)
    (set : setgateEnd E w rt glen dlen new old gate = some (ok, w')) :
    ok = true ∧ Setgate w w' rt new { w.rts rt with gateway := new + dlen, gwroute := 0 }
      (if old = 0 then w.heap.store (new + dlen) ((List.range glen).map gate)
      else ((w.heap.store (new + dlen) ((List.range glen).map gate)).store new
        (bytes (w.heap.store (new + dlen) ((List.range glen).map gate)).mem old dlen)).free old) := by
  unfold setgateEnd at set
  obtain ⟨w'', keyed, result⟩ := Option.map_eq_some_iff.mp set
  cases result
  refine ⟨rfl, ?_⟩
  unfold Routes.setKey at keyed
  obtain ⟨leaf, isLeaf, rfl⟩ := Option.map_eq_some_iff.mp keyed
  by_cases first : old = 0
  · simp [Routes.modify, first, direct] at isLeaf ⊢
    exact ⟨rfl, by simp, ⟨rfl, rfl⟩, leaf, isLeaf, rfl⟩
  · simp [Routes.modify, first, direct] at isLeaf ⊢
    exact ⟨rfl, by simp, ⟨rfl, rfl⟩, leaf, isLeaf, rfl⟩

structure Laid (w : Routes) (rt new dlen glen : Nat) (dst gateway : Nat → UInt8) : Prop where
  place : new ≠ 0 ∧ (w.rts rt).gateway = new + dlen
  block : ⟨new, glen + dlen⟩ ∈ w.heap.blocks ∧ w.heap.Kept ⟨new, glen + dlen⟩
  length : w.heap.mem new = dst 0
  gateway : ∀ i < glen, w.heap.mem (new + dlen + i) = gateway i
  keyed : w.rtKey rt = new

theorem char_le (b : UInt8) : (char b).toNat ≤ b.toNat := by
  unfold char
  split <;> omega

theorem maskedBytes_length (src netmask : Nat → UInt8) :
    (maskedBytes src netmask).length = max 2 (char (src 0)).toNat := by
  rw [maskedBytes, List.length_map, List.length_range]

theorem maskedBytes_fits {src netmask : Nat → UInt8} (length : (src 0).toNat ≠ 0) :
    (maskedBytes src netmask).length ≤ roundup (src 0).toNat := by
  have short := (src 0).toNat_lt
  have low := char_le (src 0)
  rw [maskedBytes_length, roundup_eq length short]
  omega

theorem store_front {h : Heap} {a n : Nat} {gate : Nat → UInt8} :
    ∀ i < n, (h.store a ((List.range n).map gate)).mem (a + i) = gate i := by
  intro i inside
  rw [Heap.store_mem, write_inside (by simpa using inside)]
  simp

theorem rtKey_of_keyed {v : Caddr} (keyed : Keyed w.tables.nodes rt v) : w.rtKey rt = v.addr := by
  obtain ⟨leaf, isLeaf, rfl⟩ := keyed
  simp only [Routes.rtKey, isLeaf, Option.map_some, Option.getD_some]

theorem Setgate.keyed {r : Rtentry} {heap : Heap} (set : Setgate w w' rt new r heap) :
    Keyed w'.tables.nodes rt (w'.caddr new) := by
  obtain ⟨leaf, -, result⟩ := set.tables
  rw [result]
  refine ⟨{ leaf with key := w'.caddr new }, ?_, rfl⟩
  dsimp only
  rw [setLeaf, Function.update_self]
  rfl

theorem Setgate.unlinked {t : Nat} {r : Rtentry} {heap : Heap} (set : Setgate w w' rt new r heap)
    (unlinked : Unlinked w.tables.nodes t) : Unlinked w'.tables.nodes t := by
  obtain ⟨leaf, isLeaf, result⟩ := set.tables
  rw [result]
  exact unlinked.setLeaf isLeaf rfl

theorem maskedBytes_first {src netmask : Nat → UInt8} (positive : 0 < (maskedBytes src netmask).length) :
    (maskedBytes src netmask).get ⟨0, positive⟩ = src 0 := by
  simp [maskedBytes]

theorem rtSetgate_first {n : Nat} (direct : (w.rts rt).flags.gateway = false)
    (none : (w.rts rt).gateway = 0) (noKey : w.rtKey rt = 0)
    (set : rtSetgate E w rt n gate = some (true, w')) :
    ∃ new heap, w.heap.malloc (roundup (gate 0).toNat + roundup n) = (new, heap) ∧ new ≠ 0 ∧
      Setgate w w' rt new { w.rts rt with gateway := new + roundup n, gwroute := 0 }
        (heap.store (new + roundup n) ((List.range (roundup (gate 0).toNat)).map gate)) := by
  unfold rtSetgate at set
  dsimp only at set
  rw [if_pos (Or.inl none)] at set
  generalize given : w.heap.malloc (roundup (gate 0).toNat + roundup n) = result at set
  obtain ⟨new, heap⟩ := result
  dsimp only at set
  split at set
  · cases set
  · rename_i nonzero
    have spec := (setgateEnd_spec (w := { w with heap }) direct set).2
    rw [noKey, if_pos rfl] at spec
    exact ⟨new, heap, rfl, nonzero, spec.heap, spec.route, spec.same, spec.tables⟩

/-- What `makeroute` leaves: the route is in the tree under the masked destination. -/
structure Made (w w₁ : Routes) (rt new : Nat) (dst gateway netmask : Nat → UInt8)
    (flags : RtFlags) : Prop where
  laid : Laid w₁ rt new (roundup (dst 0).toNat) (roundup (gateway 0).toNat) dst gateway
  masked : bytes w₁.heap.mem new (maskedBytes dst netmask).length = maskedBytes dst netmask
  flags : (w₁.rts rt).flags = flags
  stray : w₁.heap.stray = w.heap.stray
  ifaddrs : w₁.ifaddrs = w.ifaddrs
  keyed : Keyed w₁.tables.nodes rt (w₁.caddr new)

theorem makeroute_spec {w₁ : Routes} {fuel treetop pair : Nat} {dst mask : Caddr}
    {gateway : Nat → UInt8} {flags : RtFlags}
    (direct : flags.gateway = false) (length : (dst 0).toNat ≠ 0) (unlinked : Unlinked w.tables.nodes rt)
    (notTop : treetop ≠ rt) (notPair : pair ≠ rt) (notNext : pair + sizeofRadixNode ≠ rt)
    (made : makeroute E fuel w treetop dst gateway (some mask) flags pair = some (0, rt, w₁)) :
    ∃ new, Made w w₁ rt new dst gateway mask flags := by
  unfold makeroute at made
  generalize allocated : w.heap.malloc sizeofRtentry = result at made
  obtain ⟨p, heap⟩ := result
  dsimp only at made
  split at made
  · cases made
  rename_i nonzero
  split at made
  · cases made
  · cases made
  rename_i w₂ set
  split at made
  · cases made
  · cases made
  rename_i rn tables added
  split at made
  · cases made
  rename_i returned
  cases made
  have isBlank : (zalloc w.tables.nodes rt) rt = RadixNode.blank := zalloc_blank _ _
  have fresh := unlinked.zalloc nonzero rt
  obtain ⟨new, heap', given, nonzero', spec⟩ := rtSetgate_first (by simpa [zeroRtentry] using direct)
    (by simp [zeroRtentry])
      (by simp [Routes.rtKey, Radix.alloc, isBlank, RadixNode.blank, RadixNode.leaf?]) set
  have route := spec.route
  rw [Routes.modify_rts] at route
  have leafT : (w₂.tables.nodes rt).node? = none := by
    obtain ⟨u, isLeaf, -⟩ := spec.keyed
    exact node?_of_leaf (by rw [isLeaf]; rfl)
  have atKey : w₂.rtKey rt = new := rtKey_of_keyed spec.keyed
  rw [atKey] at added ⊢
  have keyed := rnAddroute_keyed (spec.unlinked fresh) leafT nonzero notTop notPair notNext returned added
  have kept := Heap.malloc_kept given nonzero'
  have block := Heap.malloc_block given nonzero'
  have fits := @maskedBytes_fits dst mask length
  have positive : 0 < (maskedBytes dst mask).length := by
    rw [maskedBytes_length]
    omega
  refine ⟨new, ⟨⟨nonzero', by rw [route]⟩, ⟨?_, ?_⟩, ?_, ?_,
    @rtKey_of_keyed { w₂ with tables } _ _ keyed⟩, ?_, by rw [route]; rfl, ?_,
    spec.same.1, keyed⟩
  · -- the block
    show _ ∈ w₂.heap.blocks
    rw [spec.heap]
    exact block
  · show w₂.heap.Kept _
    rw [spec.heap]
    exact kept
  · -- the length
    have first := @write_inside w₂.heap.mem new 0 (maskedBytes dst mask) positive
    rw [maskedBytes_first] at first
    exact first
  · intro i inside
    have behind : write w₂.heap.mem new (maskedBytes dst mask) (new + roundup (dst 0).toNat + i) =
        w₂.heap.mem (new + roundup (dst 0).toNat + i) :=
      write_outside (by omega)
    refine behind.trans ?_
    rw [spec.heap]
    exact store_front i inside
  · exact bytes_write _ _ _
  · -- nothing has been written to a released block
    show (w₂.heap.store new (maskedBytes dst mask)).stray = w.heap.stray
    rw [spec.heap, Heap.store_stray, Heap.store_stray, (Heap.malloc_mem given).2]
    · exact (Heap.malloc_mem allocated).2
    · apply kept.mono
      simp [Region.Within, Region.stop]
      omega
    · apply Heap.Kept.store
      apply kept.mono
      simp [Region.Within, Region.stop]
      omega

theorem arpResolve_cloning {g : Nat} :
    ((arpResolve w rt g).rts rt).flags.cloning = (w.rts rt).flags.cloning := by
  unfold arpResolve
  dsimp only
  split
  · rfl
  · split
    · rfl
    · split <;> simp

structure Alike (w w' : Routes) (rt : Nat) : Prop where
  heap : w'.heap = w.heap
  tables : w'.tables = w.tables
  gateway : (w'.rts rt).gateway = (w.rts rt).gateway
  flag : (w'.rts rt).flags.gateway = (w.rts rt).flags.gateway

theorem Alike.trans {w'' : Routes} (first : Alike w w' rt) (second : Alike w' w'' rt) : Alike w w'' rt :=
  ⟨second.heap.trans first.heap, second.tables.trans first.tables,
    second.gateway.trans first.gateway, second.flag.trans first.flag⟩

/-- A route that is cloned from has got a new gateway, and what it says of the link went to where
    the gateway was before. -/
structure Relinked (E : Env) (w w₃ w' : Routes) (rt : Nat) (ok : Bool) : Prop where
  set : ∃ w₂, Alike w w₂ rt ∧ rtSetgate E w₂ rt (w.heap.mem (w.rtKey rt)).toNat sdlNull = some (ok, w₃)
  heap : w'.heap = setLink w₃.heap (w.rts rt).gateway (w'.ifnets (w'.rts rt).ifp)
  tables : w'.tables = w₃.tables
  gateway : (w'.rts rt).gateway = (w₃.rts rt).gateway

theorem arpRtrequest_add (direct : (w.rts rt).flags.gateway = false)
    (ran : arpRtrequest E w .add rt = some w')
    (cloning : (w'.rts rt).flags.cloning = true) : ∃ ok w₃, Relinked E w w₃ w' rt ok := by
  unfold arpRtrequest at ran
  dsimp only at ran
  rw [direct, if_neg Bool.false_ne_true] at ran
  cases isNet : isNetwork w rt with
  | none =>
    rw [isNet] at ran
    cases ran
  | some network =>
    rw [isNet] at ran
    dsimp only at ran
    generalize cleared : (if network then w.modify rt fun r =>
      { r with flags := { r.flags with cloning := true } } else w) = w₂ at ran
    have alike : Alike w w₂ rt := by
      rw [← cleared]
      constructor <;> split <;> simp
    have key : w₂.rtKey rt = w.rtKey rt := by rw [Routes.rtKey, Routes.rtKey, alike.tables]
    split at ran
    · rw [alike.heap, key] at ran
      split at ran
      · cases ran
      · rename_i ok w₃ set
        cases ran
        exact ⟨ok, w₃, ⟨w₂, alike, set⟩, by simp [Routes.modify], rfl, by simp⟩
    · rename_i notCloning
      cases ran
      rw [arpResolve_cloning] at cloning
      exact absurd cloning notCloning

theorem attach_add {ifa parent : Nat} {held : Bool} (hook : (w.ifaddrs ifa).rtrequest = some .arp)
    (direct : (w.rts rt).flags.gateway = false) (attached : attach E w rt ifa .add parent held = some w')
    (cloning : (w'.rts rt).flags.cloning = true) : ∃ ok w₃, Relinked E w w₃ w' rt ok := by
  unfold attach at attached
  dsimp only at attached
  rw [if_neg (by simp)] at attached
  obtain ⟨w₄, requested, rfl⟩ := Option.map_eq_some_iff.mp attached
  simp only [Routes.modify, Function.update_self, hook] at requested
  obtain ⟨w₁, alike, requested⟩ : ∃ w₁, Alike w w₁ rt ∧ arpRtrequest E w₁ .add rt = some w₄ := by
    refine ⟨_, ⟨?_, ?_, ?_, ?_⟩, requested⟩
    · rfl
    · rfl
    · dsimp only
      rw [Function.update_self]
    · dsimp only
      rw [Function.update_self]
  have cloned : (w₄.rts rt).flags.cloning = true := by
    split at cloning
    · rwa [Routes.modify_rts] at cloning
    · exact cloning
  obtain ⟨ok, w₃, ⟨⟨w₂, alike', set⟩, heap, tables, gateway⟩⟩ :=
    arpRtrequest_add (alike.flag.trans direct) requested cloned
  have key : w₁.rtKey rt = w.rtKey rt := by rw [Routes.rtKey, Routes.rtKey, alike.tables]
  rw [alike.heap, key] at set
  rw [alike.gateway] at heap
  refine ⟨ok, w₃, ⟨w₂, alike.trans alike', set⟩, ?_, ?_, ?_⟩
  · split
    · rw [Routes.modify_rts]
      exact heap
    · exact heap
  · split <;> exact tables
  · split
    · rw [Routes.modify_rts]
      exact gateway
    · exact gateway

theorem setLink_mem (h : Heap) (g : Nat) (ifp : Ifnet) :
    (setLink h g ifp).mem (g + 4) = ifp.type ∧ (setLink h g ifp).mem (g + 2) = ifp.index.toUInt8 ∧
      (setLink h g ifp).mem (g + 3) = (ifp.index >>> 8).toUInt8 := by
  refine ⟨?_, ?_, ?_⟩ <;> simp [setLink, write]

theorem setLink_same (h : Heap) (g : Nat) (ifp : Ifnet) : SameBut (g + 2) 3 h.mem (setLink h g ifp).mem :=
  (SameBut.write h.mem (by omega) (by simp)).trans (SameBut.write _ (by omega) (by simp))

theorem setLink_stray {h : Heap} {g : Nat} {ifp : Ifnet} (kept : h.Kept ⟨g, 5⟩) :
    (setLink h g ifp).stray = h.stray := by
  rw [setLink, Heap.store_stray, Heap.store_stray]
  · apply kept.mono
    simp [Region.Within, Region.stop]
  · apply Heap.Kept.store
    apply kept.mono
    simp [Region.Within, Region.stop]

theorem setLink_stale {h : Heap} {g : Nat} {ifp : Ifnet} {r : Region} (released : r ∈ h.released)
    (low : r.addr ≤ g) (high : g + 4 ≤ r.stop) :
    h.stray.length < (setLink h g ifp).stray.length := by
  have before := Heap.stray_grows h (g + 4) [ifp.type]
  have stale : ¬ Region.Apart r ⟨g + 2, 2⟩ := by
    simp only [Region.Apart, Region.stop] at high ⊢
    omega
  have grown : (h.store (g + 4) [ifp.type]).stray.length < (setLink h g ifp).stray.length :=
    Heap.store_stale released stale
  exact before.trans_lt grown

theorem rtSetgate_kept {n : Nat} (some : (w.rts rt).gateway ≠ 0)
    (fits : roundup (gate 0).toNat ≤ roundup (w.heap.mem (w.rts rt).gateway).toNat) :
    rtSetgate E w rt n gate = setgateEnd E w rt (roundup (gate 0).toNat) (roundup n) (w.rtKey rt) 0 gate := by
  unfold rtSetgate
  dsimp only
  rw [if_neg]
  rintro (none | more)
  · exact some none
  · omega

theorem roundup_dl : roundup (sdlNull 0).toNat = sizeofSockaddrDl := roundup_eq (by decide) (by decide)

theorem Relinked.kept {w₃ : Routes} {ok : Bool} {dst gateway : Nat → UInt8}
    (relinked : Relinked E w w₃ w' rt ok)
    (laid : Laid w rt new (roundup (dst 0).toNat) (roundup (gateway 0).toNat) dst gateway)
    (direct : (w.rts rt).flags.gateway = false)
    (fits : sizeofSockaddrDl ≤ roundup (gateway 0).toNat) :
    (w'.rts rt).gateway = new + roundup (dst 0).toNat ∧
      w'.heap = setLink (w.heap.store (new + roundup (dst 0).toNat)
        ((List.range sizeofSockaddrDl).map sdlNull))
        (new + roundup (dst 0).toNat) (w'.ifnets (w'.rts rt).ifp) ∧
      ∃ leaf, (w.tables.nodes rt).leaf? = some leaf ∧
        w'.tables = { w.tables with
          nodes := setLeaf w.tables.nodes rt { leaf with key := w₃.caddr new } } := by
  obtain ⟨⟨w₂, alike, set⟩, heap, tables, gate⟩ := relinked
  have first : w.heap.mem (new + roundup (dst 0).toNat) = gateway 0 := by
    apply laid.gateway 0
    simp only [sizeofSockaddrDl] at fits
    omega
  have present : (w₂.rts rt).gateway = new + roundup (dst 0).toNat := alike.gateway.trans laid.place.2
  have key : w₂.rtKey rt = new := by
    rw [Routes.rtKey, alike.tables]
    exact laid.keyed
  rw [laid.keyed, laid.length, rtSetgate_kept, key] at set
  · obtain ⟨-, spec⟩ := setgateEnd_spec (alike.flag.trans direct) set
    rw [if_pos rfl, roundup_dl, alike.heap] at spec
    rw [spec.heap, laid.place.2] at heap
    obtain ⟨leaf, isLeaf, result⟩ := spec.tables
    rw [alike.tables] at isLeaf result
    exact ⟨by rw [gate, spec.route], heap, leaf, isLeaf, tables.trans result⟩
  · have nonzero := laid.place.1
    rw [present]
    omega
  · rw [present, alike.heap, first, roundup_dl]
    exact fits

theorem Relinked.moved {w₃ : Routes} {ok : Bool} {dst gateway : Nat → UInt8}
    (relinked : Relinked E w w₃ w' rt ok)
    (laid : Laid w rt new (roundup (dst 0).toNat) (roundup (gateway 0).toNat) dst gateway)
    (direct : (w.rts rt).flags.gateway = false)
    (length : (gateway 0).toNat ≠ 0) (short : roundup (gateway 0).toNat < sizeofSockaddrDl) :
    w.heap.stray.length < w'.heap.stray.length ∨ w'.heap.mem (w'.rts rt).gateway = gateway 0 := by
  obtain ⟨⟨w₂, alike, set⟩, heap, tables, gate⟩ := relinked
  have rounded := roundup_eq length (gateway 0).toNat_lt
  have first : w.heap.mem (new + roundup (dst 0).toNat) = gateway 0 := laid.gateway 0 (by omega)
  have present : (w₂.rts rt).gateway = new + roundup (dst 0).toNat := alike.gateway.trans laid.place.2
  have key : w₂.rtKey rt = new := by
    rw [Routes.rtKey, alike.tables]
    exact laid.keyed
  unfold rtSetgate at set
  dsimp only at set
  rw [if_pos (by rw [present, alike.heap, first, roundup_dl]; exact Or.inr short), key] at set
  generalize given : w₂.heap.malloc (roundup (sdlNull 0).toNat +
    roundup (w.heap.mem (w.rtKey rt)).toNat) = result at set
  obtain ⟨moved, heap'⟩ := result
  rw [alike.heap] at given
  dsimp only at set
  split at set
  · -- no block
    right
    cases set
    rw [gate, present, heap, laid.place.2, setLink_same _ _ _ _ (by omega)]
    dsimp only
    rw [(Heap.malloc_mem given).1, first]
  · left
    obtain ⟨-, spec⟩ := setgateEnd_spec (w := { w₂ with heap := heap' }) (alike.flag.trans direct) set
    rw [if_neg laid.place.1] at spec
    have block := Heap.malloc_blocks given laid.block.1
    have stale : w₃.heap.stray.length < w'.heap.stray.length := by
      rw [heap, laid.place.2]
      apply setLink_stale (r := ⟨new, roundup (gateway 0).toNat + roundup (dst 0).toNat⟩)
      · rw [spec.heap]
        exact Heap.free_released block
      · exact Nat.le_add_right _ _
      · simp only [Region.stop]
        omega
    have grown : w.heap.stray.length ≤ w₃.heap.stray.length := by
      rw [spec.heap, Heap.free_stray, ← (Heap.malloc_mem given).2]
      exact (Heap.stray_grows _ _ _).trans (Heap.stray_grows _ _ _)
    exact grown.trans_lt stale

def Routes.seen (w : Routes) (rt : Nat) : RadixStore :=
  match (w.tables.nodes rt).leaf? with
  | none => w.tables.toRadixStore
  | some leaf =>
    { w.tables.toRadixStore with
      nodes := setLeaf w.tables.nodes rt { leaf with key := w.caddr leaf.key.addr } }

/-- What is said of a route that is cloned from: `w` is the routing memory before, and `w₁` that
    with the route just in the tree. Addresses and masks are no longer than the destination. -/
structure LinkLevel (w w₁ w' : Routes) (rt treetop : Nat) (dst netmask : Nat → UInt8) : Prop where
  family : w'.heap.mem ((w'.rts rt).gateway + 1) = afLink ∧
    sizeofSockaddrDl ≤ (w'.heap.mem (w'.rts rt).gateway).toNat
  type : w'.heap.mem ((w'.rts rt).gateway + 4) = (w'.ifnets (w'.rts rt).ifp).type
  index : w'.heap.mem ((w'.rts rt).gateway + 2) = (w'.ifnets (w'.rts rt).ifp).index.toUInt8 ∧
    w'.heap.mem ((w'.rts rt).gateway + 3) = ((w'.ifnets (w'.rts rt).ifp).index >>> 8).toUInt8
  key : bytes w'.heap.mem (w'.rtKey rt) (maskedBytes dst netmask).length = maskedBytes dst netmask
  found : ∀ fuel stray (v : Caddr), (v 0).toNat ≤ (dst 0).toNat →
    (∀ a u m, (w₁.tables.nodes a).leaf? = some u → u.mask = some m → (m 0).toNat ≤ (dst 0).toNat) →
    (rnMatch fuel (w'.seen rt) stray v treetop).map Prod.fst =
      (rnMatch fuel w₁.tables.toRadixStore stray v treetop).map Prod.fst
  safe : w'.heap.stray = w.heap.stray

theorem near_setLeaf {n : Nat} {nodes : Nat → RadixNode} {u u' : RnLeaf}
    (isLeaf : (nodes rt).leaf? = some u) (mask : u'.mask = u.mask)
    (duped : u'.dupedkey = u.dupedkey) (key : ∀ i < n, u'.key i = u.key i) :
    AllNear n nodes (setLeaf nodes rt u') := by
  intro a
  by_cases here : a = rt
  · have leafHere : (nodes rt).node? = none := node?_of_leaf (by rw [isLeaf]; rfl)
    rw [here, setLeaf, Function.update_self]
    refine ⟨⟨rfl, rfl, rfl, rfl, rfl⟩, leafHere.symm, ?_⟩
    intro w held
    rw [isLeaf] at held
    cases held
    exact ⟨u', rfl, mask, duped, key⟩
  · rw [setLeaf, Function.update_of_ne here]
    exact ⟨⟨rfl, rfl, rfl, rfl, rfl⟩, rfl, fun w held => ⟨w, held, rfl, rfl, fun _ _ => rfl⟩⟩

theorem linkLevel_kept {w₁ w₃ : Routes} {treetop : Nat} {ok : Bool} {dst gateway mask : Nat → UInt8}
    {flags : RtFlags} (relinked : Relinked E w₁ w₃ w' rt ok)
    (made : Made w w₁ rt new dst gateway mask flags) (direct : flags.gateway = false)
    (length : (dst 0).toNat ≠ 0) (fits : sizeofSockaddrDl ≤ roundup (gateway 0).toNat) :
    LinkLevel w w₁ w' rt treetop dst mask := by
  obtain ⟨gate, heap, leaf, isLeaf, tables⟩ := relinked.kept made.laid (by rw [made.flags, direct]) fits
  have rounded := roundup_eq length (dst 0).toNat_lt
  have shorter := @maskedBytes_fits dst mask length
  have long : 20 ≤ roundup (gateway 0).toNat := fits
  have kept := made.laid.block.2
  generalize roundup (dst 0).toNat = dlen at *
  generalize isIfp : w'.ifnets (w'.rts rt).ifp = ifp at *
  have linked :=
    setLink_mem (w₁.heap.store (new + dlen) ((List.range sizeofSockaddrDl).map sdlNull)) (new + dlen) ifp
  have same := setLink_same (w₁.heap.store (new + dlen) ((List.range sizeofSockaddrDl).map sdlNull))
    (new + dlen) ifp
  have front : ∀ i < 2, w'.heap.mem (new + dlen + i) = sdlNull i := by
    intro i small
    rw [heap, same _ (by omega)]
    exact store_front i (by simp only [sizeofSockaddrDl]; omega)
  have before : ∀ x < new + dlen, w'.heap.mem x = w₁.heap.mem x := by
    intro x low
    rw [heap, same _ (by omega), Heap.store_mem, write_outside (by omega)]
  have key : w'.rtKey rt = new := by
    rw [Routes.rtKey, tables]
    simp [setLeaf, RadixNode.leaf?, Routes.caddr]
  have keyed : leaf.key = w₁.caddr new := by
    obtain ⟨u, isU, held⟩ := made.keyed
    rw [isLeaf] at isU
    cases isU
    exact held
  have seen : w'.seen rt = { w₁.tables.toRadixStore with
      nodes := setLeaf w₁.tables.nodes rt { leaf with key := w'.caddr new } } := by
    rw [Routes.seen, tables]
    simp [setLeaf, RadixNode.leaf?, Routes.caddr]
  rw [← heap] at linked
  refine ⟨⟨?_, ?_⟩, ?_, ?_, ?_, ?_, ?_⟩
  · rw [gate]
    exact front 1 (by omega)
  · rw [gate]
    have isFirst := front 0 (by omega)
    rw [Nat.add_zero] at isFirst
    rw [isFirst]
    decide
  · rw [gate, isIfp]
    exact linked.1
  · rw [gate, isIfp]
    exact linked.2
  · rw [key]
    exact (bytes_congr fun x low high => before x (by omega)).trans made.masked
  · intro fuel stray v covered short
    have near : AllNear (dst 0).toNat w₁.tables.nodes (w'.seen rt).nodes := by
      rw [seen]
      refine @near_setLeaf rt _ _ leaf { leaf with key := w'.caddr new } isLeaf rfl rfl ?_
      intro i inside
      rw [keyed]
      exact before _ (by omega)
    exact rnMatch_near near (by rw [seen]) (by rw [seen]) (by omega) covered short
  · rw [heap, setLink_stray, Heap.store_stray, made.stray]
    · apply kept.mono
      simp [Region.Within, Region.stop]
      omega
    · apply Heap.Kept.store
      apply kept.mono
      simp [Region.Within, Region.stop]
      omega

/-- After a route that is cloned from has been added, the link stands in its gateway just if the
    gateway that it was added with is long enough: else `arp_rtrequest` writes the link to the block
    that `rt_setgate` has released. -/
theorem cloning_gateway_iff {w₁ : Routes} {fuel treetop pair ifa : Nat} {dst mask : Caddr}
    {gateway : Nat → UInt8} {flags : RtFlags}
    {retRt result : Option Nat} (family : E.rtTable (dst 1) = some treetop)
    (network : flags.host = false) (direct : flags.gateway = false)
    (length : (dst 0).toNat ≠ 0) (length' : (gateway 0).toNat ≠ 0)
    (hook : (w.ifaddrs ifa).rtrequest = some .arp)
    (unlinked : Unlinked w.tables.nodes rt) (notTop : treetop ≠ rt) (notPair : pair ≠ rt)
    (notNext : pair + sizeofRadixNode ≠ rt)
    (made : makeroute E fuel w treetop dst gateway (some mask) flags pair = some (0, rt, w₁))
    (returned : rtrequest E fuel w dst gateway (some mask) flags .add (some ifa) retRt pair =
      some (0, result, w'))
    (cloning : (w'.rts rt).flags.cloning = true) :
    LinkLevel w w₁ w' rt treetop dst mask ↔ sizeofSockaddrDl ≤ roundup (gateway 0).toNat := by
  obtain ⟨new, spec⟩ := makeroute_spec direct length unlinked notTop notPair notNext made
  obtain ⟨ok, w₃, relinked⟩ : ∃ ok w₃, Relinked E w₁ w₃ w' rt ok := by
    unfold rtrequest at returned
    rw [family, network] at returned
    dsimp only at returned
    rw [if_neg Bool.false_ne_true, made] at returned
    dsimp only at returned
    rw [if_neg (by simp)] at returned
    obtain ⟨w₂, attached, same⟩ := Option.map_eq_some_iff.mp returned
    cases same
    exact attach_add (by rw [spec.ifaddrs, hook]) (by rw [spec.flags, direct]) attached cloning
  constructor
  · intro linked
    by_contra short
    rcases relinked.moved spec.laid (by rw [spec.flags, direct]) length' (by omega) with stale | first
    · rw [linked.safe, spec.stray] at stale
      exact Nat.lt_irrefl _ stale
    · have rounded := roundup_eq length' (gateway 0).toNat_lt
      have long := linked.family.2
      rw [first] at long
      omega
  · exact linkLevel_kept relinked spec direct length

end Places

/-- The routing memory before the first route: an interface of the index 3 with the address 10.0.0.1. -/
def booted : Routes where
  heap := ⟨fun _ => 0, [3000, 6000, 7000], [], [], []⟩
  tables := started
  rts _ := zeroRtentry ⟨true, false, false, false, false, false, false⟩
  ifaddrs _ := ⟨sockaddr 10 0 0 1, 50, 1, some .arp⟩
  ifnets _ := ⟨iftEther, 3, [2, 0, 0, 0, 0, 1]⟩
  lo0 := 60
  llinfo := []

def inet : Env := ⟨fun family => if family = 2 then some 2024 else none, fun w _ => (0, w)⟩

def upFlags : RtFlags := ⟨true, false, false, false, false, false, false⟩

def ifAddr (n : UInt8) (i : Nat) : UInt8 := [n, 2, 0, 0, 10, 0, 0, 1].getD i 0

/-- The routing memory when the route to the network of an address is in the tree, and when
    `rtrequest` is done with it. -/
def madeRoute (n : UInt8) : Routes :=
  match makeroute inet 8 booted 2024 (sockaddr 10 0 0 1) (ifAddr n) (some (netmaskOf 255 0 0 0))
      upFlags 5000 with
  | some (_, _, w) => w
  | none => booted

def addedRoute (n : UInt8) : Routes :=
  match rtrequest inet 8 booted (sockaddr 10 0 0 1) (ifAddr n) (some (netmaskOf 255 0 0 0))
      upFlags .add (some 1) (some 0) 5000 with
  | some (_, _, w) => w
  | none => booted

theorem booted_unlinked : Unlinked booted.tables.nodes 3000 := by
  have blank : Unlinked (fun _ => RadixNode.blank) 3000 := by
    constructor
    · intro a u isNode
      cases isNode
    · intro a u isLeaf
      cases isLeaf
      decide
  exact Unlinked.inithead (Unlinked.inithead blank (by decide) (by decide)) (by decide) (by decide)

theorem long_gateway_linked : LinkLevel booted (madeRoute 20)
    (addedRoute 20) 3000 2024 (sockaddr 10 0 0 1) (netmaskOf 255 0 0 0) := by
  have made : makeroute inet 8 booted 2024 (sockaddr 10 0 0 1) (ifAddr 20)
    (some (netmaskOf 255 0 0 0)) upFlags 5000 =
      some (0, 3000, madeRoute 20) := rfl
  have returned : rtrequest inet 8 booted (sockaddr 10 0 0 1) (ifAddr 20)
    (some (netmaskOf 255 0 0 0)) upFlags .add (some 1) (some 0) 5000 =
      some (0, some 3000, addedRoute 20) := rfl
  exact (cloning_gateway_iff rfl rfl rfl (by decide) (by decide) rfl booted_unlinked (by decide)
    (by decide) (by decide) made returned
    rfl).mpr (by decide +kernel)

/-- The network of an interface with a `sockaddr_in` for its address: the link goes to the block of
    the `sockaddr_in`. -/
theorem interface_route_stale :
    makeroute inet 8 booted 2024 (sockaddr 10 0 0 1) (ifAddr 16)
    (some (netmaskOf 255 0 0 0)) upFlags 5000 = some (0, 3000, madeRoute 16) ∧
      rtrequest inet 8 booted (sockaddr 10 0 0 1) (ifAddr 16)
      (some (netmaskOf 255 0 0 0)) upFlags .add (some 1) (some 0) 5000 =
        some (0, some 3000, addedRoute 16) ∧
      ((addedRoute 16).rts 3000).flags.cloning = true ∧
      ¬ LinkLevel booted (madeRoute 16) (addedRoute 16) 3000 2024 (sockaddr 10 0 0 1)
      (netmaskOf 255 0 0 0) := by
  refine ⟨rfl, rfl, rfl, ?_⟩
  intro linked
  have stray : (addedRoute 16).heap.stray = [⟨6018, 2⟩, ⟨6020, 1⟩] := rfl
  have safe := linked.safe
  rw [stray] at safe
  cases safe

end Embryo.Route
