import Embryo.Exec.Stores

namespace Embryo.Exec

open Embryo.Machine

variable {σ : Type} {lay : Layout} {fd : Fd σ} {blk : Tables} {content : List UInt8}

def Fd.Serves (fd : Fd σ) (content : List UInt8) : Prop :=
  ∀ file off file', fd.lseek file off = (true, file') → ∀ n, (fd.read file' n).1 <+: content.drop off

def span (p : Phdr) : Nat := max p.pFilesz p.pMemsz

structure Image (content : List UInt8) (mem : Memory) (p : Phdr) : Prop where
  bytes : fetched mem p.pVaddr p.pFilesz = (content.drop p.pOffset).take p.pFilesz
  zeros : ∀ k, p.pFilesz ≤ k → k < p.pMemsz → mem (phys (p.pVaddr + k)) = 0

theorem phys_wrap_add (a k : Nat) : phys (wrap a + k) = phys (a + k) := by
  simp only [phys, wrap]
  omega

theorem wrap_le (n : Nat) : wrap n ≤ n := Nat.mod_le n _

theorem loadSeg_frame {p : Phdr} {ld : Loading σ} {x : Nat}
    (outside : p.pFilesz ≠ 0 → ∀ k < span p, phys (p.pVaddr + k) ≠ x) :
    (loadSeg fd p ld).2.mem x = ld.mem x := by
  unfold loadSeg
  by_cases empty : p.pFilesz = 0
  · rw [if_pos empty]
  · rw [if_neg empty]
    have outside := outside empty
    by_cases bad : ¬ chkloadaddr p
    · rw [if_pos bad]
    · rw [if_neg bad]
      have front : (loadseg2mem fd p ld).2.mem x = ld.mem x := by
        unfold loadseg2mem
        rcases fd.lseek ld.file (wrap p.pOffset) with ⟨_ | _, file⟩
        · rfl
        · apply store_outside
          intro k (bound : k < (fd.read file (wrap p.pFilesz)).1.length)
          rw [phys_wrap_add]
          have short := fd.fits file (wrap p.pFilesz)
          have less := wrap_le p.pFilesz
          exact outside k (by unfold span; omega)
      have back : ∀ ld' : Loading σ, (clearseg p ld').mem x = ld'.mem x := by
        intro ld'
        unfold clearseg
        by_cases longer : p.pFilesz < p.pMemsz
        · rw [if_pos longer]
          apply store_outside
          intro k bound
          rw [List.length_replicate] at bound
          have less := wrap_le (p.pMemsz - p.pFilesz)
          rw [phys_wrap_add, Nat.add_assoc]
          exact outside (p.pFilesz + k) (by unfold span; omega)
        · rw [if_neg longer]
      rcases loaded : loadseg2mem fd p ld with ⟨_ | _, ld'⟩
      · rw [loaded] at front
        exact front
      · rw [loaded] at front
        exact (back ld').trans front

theorem loadSeg_stored {p : Phdr} {ld : Loading σ} (nonempty : p.pFilesz ≠ 0)
    (accepted : (loadSeg fd p ld).1 = true) :
    ∃ file, fd.lseek ld.file (wrap p.pOffset) = (true, file) ∧
      (fd.read file (wrap p.pFilesz)).2.1 = wrap p.pFilesz ∧
      (loadSeg fd p ld).2.mem =
        let front := store ld.mem (wrap p.pVaddr) (fd.read file (wrap p.pFilesz)).1
        if p.pFilesz < p.pMemsz then
          store front (wrap (p.pVaddr + p.pFilesz)) (List.replicate (wrap (p.pMemsz - p.pFilesz)) 0)
        else front := by
  unfold loadSeg at accepted ⊢
  rw [if_neg nonempty] at accepted ⊢
  by_cases bad : ¬ chkloadaddr p
  · rw [if_pos bad] at accepted
    cases accepted
  · rw [if_neg bad] at accepted ⊢
    unfold loadseg2mem at accepted ⊢
    rcases sought : fd.lseek ld.file (wrap p.pOffset) with ⟨_ | _, file⟩
    · rw [sought] at accepted
      cases accepted
    · rw [sought] at accepted
      refine ⟨file, rfl, ?_⟩
      by_cases complete : (fd.read file (wrap p.pFilesz)).2.1 = wrap p.pFilesz
      · refine ⟨complete, ?_⟩
        simp only [complete, decide_true]
        unfold clearseg
        split <;> rfl
      · simp [complete] at accepted

theorem loadSeg_image (serves : fd.Serves content) {p : Phdr} {ld : Loading σ} (nonempty : p.pFilesz ≠ 0)
    (whole : span p ≤ 2^29) (near : p.pOffset < 2^32) (accepted : (loadSeg fd p ld).1 = true) :
    Image content (loadSeg fd p ld).2.mem p := by
  have small : p.pFilesz ≤ 2^29 ∧ p.pMemsz ≤ 2^29 := by
    unfold span at whole
    omega
  obtain ⟨file, sought, complete, stored⟩ := loadSeg_stored nonempty accepted
  have fits := fd.fits file (wrap p.pFilesz)
  have told := fd.told file (wrap p.pFilesz)
  have served := serves _ _ _ sought (wrap p.pFilesz)
  rw [stored]
  rw [wrap_of_lt near] at served
  rw [wrap_of_lt (show p.pFilesz < 2^32 by omega)] at complete fits told served ⊢
  generalize (fd.read file p.pFilesz).1 = data at fits told served ⊢
  have all : data.length = p.pFilesz := by omega
  have same : data = (content.drop p.pOffset).take p.pFilesz := by
    rw [← all]
    exact List.prefix_iff_eq_take.mp served
  have loaded : fetched (store ld.mem (wrap p.pVaddr) data) p.pVaddr p.pFilesz = data := by
    have front := @fetched_store ld.mem (wrap p.pVaddr) data (by omega)
    simp only [fetched, phys_wrap_add] at front
    rw [← all]
    exact front
  by_cases longer : p.pFilesz < p.pMemsz
  · have length : (List.replicate (wrap (p.pMemsz - p.pFilesz)) (0 : UInt8)).length =
        p.pMemsz - p.pFilesz := by
      rw [List.length_replicate, wrap_of_lt (by omega)]
    simp only [if_pos longer]
    constructor
    · rw [← same, ← loaded]
      apply fetched_congr
      intro k bound
      rw [loaded]
      apply store_outside
      intro j less
      rw [length] at less
      rw [phys_wrap_add]
      simp only [phys]
      omega
    · intro k low high
      have place : phys (p.pVaddr + k) = phys (wrap (p.pVaddr + p.pFilesz) + (k - p.pFilesz)) := by
        rw [phys_wrap_add]
        congr 1
        omega
      rw [place, store_inside (by omega) (by omega)]
      simp
  · simp only [if_neg longer]
    constructor
    · rw [loaded, same]
    · intro k low high
      omega

def loadSegs (fd : Fd σ) : List (Nat × Phdr) → Loading σ → Bool × Loading σ
  | [], ld => (true, ld)
  | (i, p) :: rest, ld =>
    match loadSeg fd p { ld with order := ld.order ++ [i] } with
    | (false, ld) => (false, ld)
    | (true, ld) => loadSegs fd rest ld

theorem loadSegs_true {i : Nat} {p : Phdr} {rest : List (Nat × Phdr)} {ld : Loading σ}
    (accepted : (loadSegs fd ((i, p) :: rest) ld).1 = true) :
    ∃ next, loadSeg fd p { ld with order := ld.order ++ [i] } = (true, next) ∧
      loadSegs fd ((i, p) :: rest) ld = loadSegs fd rest next ∧ (loadSegs fd rest next).1 = true := by
  rw [loadSegs] at accepted ⊢
  rcases loaded : loadSeg fd p { ld with order := ld.order ++ [i] } with ⟨_ | _, next⟩
  · rw [loaded] at accepted
    cases accepted
  · rw [loaded] at accepted
    exact ⟨next, rfl, rfl, accepted⟩

theorem loadSeg_order (p : Phdr) (ld : Loading σ) : (loadSeg fd p ld).2.order = ld.order := by
  unfold loadSeg
  split_ifs
  · rfl
  · unfold loadseg2mem
    rcases fd.lseek ld.file (wrap p.pOffset) with ⟨_ | _, file⟩
    · rfl
    · dsimp only
      cases decide ((fd.read file (wrap p.pFilesz)).2.1 = wrap p.pFilesz) with
      | false => rfl
      | true =>
        dsimp only
        unfold clearseg
        split <;> rfl
  · rfl

theorem loadSegs_order {order : List (Nat × Phdr)} {ld : Loading σ}
    (accepted : (loadSegs fd order ld).1 = true) :
    (loadSegs fd order ld).2.order = ld.order ++ order.map Prod.fst := by
  induction order generalizing ld with
  | nil => exact (List.append_nil _).symm
  | cons seg rest ih =>
    obtain ⟨i, p⟩ := seg
    obtain ⟨next, loaded, same, accepted'⟩ := loadSegs_true accepted
    have kept := @loadSeg_order σ fd p { ld with order := ld.order ++ [i] }
    rw [loaded] at kept
    rw [same, ih accepted', kept, List.map_cons, List.append_assoc]
    rfl

theorem loadSegs_frame {order : List (Nat × Phdr)} {ld : Loading σ} {x : Nat}
    (outside : ∀ seg ∈ order, seg.2.pFilesz ≠ 0 → ∀ k < span seg.2, phys (seg.2.pVaddr + k) ≠ x) :
    (loadSegs fd order ld).2.mem x = ld.mem x := by
  induction order generalizing ld with
  | nil => rfl
  | cons seg rest ih =>
    obtain ⟨i, p⟩ := seg
    have first := @loadSeg_frame σ fd p { ld with order := ld.order ++ [i] } x
      (outside (i, p) List.mem_cons_self)
    rw [loadSegs]
    rcases loaded : loadSeg fd p { ld with order := ld.order ++ [i] } with ⟨_ | _, next⟩
    · rw [loaded] at first
      exact first
    · rw [loaded] at first
      exact (ih fun seg member => outside seg (List.mem_cons_of_mem _ member)).trans first

def Apart (p q : Phdr) : Prop := ∀ k < span p, ∀ l < span q, phys (p.pVaddr + k) ≠ phys (q.pVaddr + l)

theorem Image.kept {mem mem' : Memory} {p : Phdr} (image : Image content mem p)
    (same : ∀ k < span p, mem' (phys (p.pVaddr + k)) = mem (phys (p.pVaddr + k))) : Image content mem' p where
  bytes := by
    rw [← image.bytes]
    apply fetched_congr
    intro k bound
    exact same k (by unfold span; omega)
  zeros := by
    intro k low high
    rw [same k (by unfold span; omega)]
    exact image.zeros k low high

theorem loadSegs_image (serves : fd.Serves content) {order : List (Nat × Phdr)} {ld : Loading σ}
    (accepted : (loadSegs fd order ld).1 = true) (whole : ∀ seg ∈ order, span seg.2 ≤ 2^29)
    (apart : order.Pairwise fun x y => Apart x.2 y.2) {i : Nat} {p : Phdr} (member : (i, p) ∈ order)
    (nonempty : p.pFilesz ≠ 0) (near : p.pOffset < 2^32) : Image content (loadSegs fd order ld).2.mem p := by
  induction order generalizing ld with
  | nil => cases member
  | cons seg rest ih =>
    obtain ⟨j, q⟩ := seg
    obtain ⟨next, loaded, same, accepted'⟩ := loadSegs_true accepted
    obtain ⟨first, later⟩ := List.pairwise_cons.mp apart
    rw [same]
    rcases List.mem_cons.mp member with here | there
    · obtain ⟨rfl, rfl⟩ := Prod.mk.inj here
      have image := @loadSeg_image σ fd content serves p { ld with order := ld.order ++ [i] } nonempty
        (whole (i, p) List.mem_cons_self) near (by rw [loaded])
      rw [loaded] at image
      apply image.kept
      intro k bound
      apply loadSegs_frame
      intro seg member' _ l less
      exact (first seg member' k bound l less).symm
    · exact ih accepted' (fun seg member' => whole seg (List.mem_cons_of_mem _ member')) later there

structure Alike (ld ld' : Loading σ) : Prop where
  file : ld.file = ld'.file
  order : ld.order = ld'.order
  mem : ∀ x, ¬ mdOnHeapSpace x → ld.mem (phys x) = ld'.mem (phys x)

theorem store_alike {mem mem' : Memory}
    (same : ∀ x, ¬ mdOnHeapSpace x → mem (phys x) = mem' (phys x)) (a : Nat) (data : List UInt8) :
    ∀ x, ¬ mdOnHeapSpace x → store mem a data (phys x) = store mem' a data (phys x) := by
  induction data generalizing mem mem' a with
  | nil => exact same
  | cons b rest ih =>
    apply ih
    intro x off
    by_cases here : phys x = phys a
    · rw [here, Function.update_self, Function.update_self]
    · rw [Function.update_of_ne here, Function.update_of_ne here]
      exact same x off

theorem Alike.put {ld ld' : Loading σ} (alike : Alike ld ld') (a : Nat) (data : List UInt8) :
    Alike (ld.put a data) (ld'.put a data) where
  file := alike.file
  order := alike.order
  mem := store_alike alike.mem a data

theorem Alike.moved {ld ld' : Loading σ} (alike : Alike ld ld') (file : σ) :
    Alike { ld with file := file } { ld' with file := file } where
  file := rfl
  order := alike.order
  mem := alike.mem

theorem Alike.clearseg {ld ld' : Loading σ} (alike : Alike ld ld') (p : Phdr) :
    Alike (Exec.clearseg p ld) (Exec.clearseg p ld') := by
  unfold Exec.clearseg
  split
  · exact alike.put _ _
  · exact alike

theorem loadSeg_alike {ld ld' : Loading σ} (alike : Alike ld ld') (p : Phdr) :
    (loadSeg fd p ld).1 = (loadSeg fd p ld').1 ∧ Alike (loadSeg fd p ld).2 (loadSeg fd p ld').2 := by
  unfold loadSeg
  split_ifs
  · exact ⟨rfl, alike⟩
  · unfold loadseg2mem
    rw [alike.file]
    rcases fd.lseek ld'.file (wrap p.pOffset) with ⟨_ | _, file⟩
    · exact ⟨rfl, rfl, alike.order, alike.mem⟩
    · have moved := (alike.moved (fd.read file (wrap p.pFilesz)).2.2).put (wrap p.pVaddr)
        (fd.read file (wrap p.pFilesz)).1
      dsimp only
      cases decide ((fd.read file (wrap p.pFilesz)).2.1 = wrap p.pFilesz) with
      | false => exact ⟨rfl, moved⟩
      | true => exact ⟨rfl, moved.clearseg p⟩
  · exact ⟨rfl, alike⟩

theorem Tables.Placed.onHeap {n : Nat} (placed : blk.Placed lay n) {i k : Nat} (bound : i < n)
    (inside : k < 4) :
    mdOnHeapSpace (blk.ephdr lay i + k) := by
  have low := placed.tableLow
  have high := placed.tableHigh
  have here := @Tables.ephdr_bounds blk lay _ i bound
  have typed := lay.typed
  simp only [mdOnHeapSpace, phys, heapBase, heapSize] at low high ⊢
  omega

theorem Alike.retire {n : Nat} {ld ld' : Loading σ} (alike : Alike ld ld')
    (placed : blk.Placed lay n) {i : Nat}
    (bound : i < n) : Alike (ld.retire (blk.ephdr lay i)) ld' where
  file := alike.file
  order := alike.order
  mem := by
    intro x off
    rw [← alike.mem x off]
    apply store_outside
    intro k inside same
    apply off
    simpa only [mdOnHeapSpace, same] using placed.onHeap bound inside

theorem loop_loads {n : Nat} {ld ld' : Loading σ} (alike : Alike ld ld')
    (placed : blk.Placed lay (blk.phdrs lay ld.mem).length)
    (enough : findables lay (blk.phdrs lay ld.mem) ≤ n)
    (safe : HeapSafe fd ld.file (loadOrder lay n (blk.phdrs lay ld.mem))) :
    ∃ out, loadLoop lay fd blk (n + 1) ld = some out ∧
      Alike out.2.2 (loadSegs fd (loadOrder lay n (blk.phdrs lay ld.mem)) ld').2 ∧
      (out.1 = .success ↔ (loadSegs fd (loadOrder lay n (blk.phdrs lay ld.mem)) ld').1 = true) := by
  induction n generalizing ld ld' with
  | zero =>
    rcases lowest_cases lay (blk.phdrs lay ld.mem) with ⟨stopped, _⟩ | ⟨i, p, _, entry, findable, _⟩
    · refine ⟨_, loop_leave (by omega) (by rw [loadPass, stopped]), ?_, ?_⟩
      · rw [loadOrder_none stopped]
        exact alike
      · simp [loadOrder, loadSegs]
    · have fewer := findables_retired entry findable
      omega
  | succ n ih =>
    rcases lowest_cases lay (blk.phdrs lay ld.mem) with ⟨stopped, _⟩ | ⟨i, p, next, entry, findable, _⟩
    · refine ⟨_, loop_leave (by omega) (by rw [loadPass, stopped]), ?_, ?_⟩
      · rw [loadOrder_none stopped]
        exact alike
      · rw [loadOrder_none stopped]
        simp [loadSegs]
    · have fewer := findables_retired entry findable
      have bound : i < (blk.phdrs lay ld.mem).length := (List.getElem?_eq_some_iff.mp entry).1
      rw [loadOrder_some next entry] at safe ⊢
      obtain ⟨clear, later⟩ := safe
      have pass := loadPass_eq next entry placed fun nonempty valid => (clear nonempty valid).1
      have kept := @loadSeg_kept σ fd p { ld with order := ld.order ++ [i] } clear
      have went := @loadSeg_file σ fd p { ld with order := ld.order ++ [i] }
      have started : Alike { ld with order := ld.order ++ [i] } { ld' with order := ld'.order ++ [i] } :=
        ⟨alike.file, by rw [alike.order], alike.mem⟩
      have both := @loadSeg_alike σ fd _ _ started p
      rw [loadSegs]
      rcases loaded : loadSeg fd p { ld with order := ld.order ++ [i] } with ⟨ok, ld1⟩
      rcases loaded' : loadSeg fd p { ld' with order := ld'.order ++ [i] } with ⟨ok', ld1'⟩
      rw [loaded] at pass kept went both
      rw [loaded'] at both
      obtain ⟨same, alike'⟩ := both
      simp only at same alike' kept went
      subst same
      cases ok with
      | false =>
        refine ⟨_, loop_leave (by omega) (by rw [pass]), alike', ?_⟩
        simp
      | true =>
        have after := phdrs_next placed bound kept
        have rest := @ih (ld1.retire (blk.ephdr lay i)) ld1' (alike'.retire placed bound)
          (by rw [after, retired_length]; exact placed) (by rw [after]; omega)
          (by rw [after]; exact later _ (by rw [went]; rfl))
        rw [after] at rest
        obtain ⟨out, left, alike'', success⟩ := rest
        exact ⟨out, (loop_again (by rw [pass])).trans left, alike'', success⟩

theorem loadSegs_verdict (order : List (Nat × Phdr)) {ld ld' : Loading σ} (same : ld.file = ld'.file) :
    (loadSegs fd order ld).1 = (loadSegs fd order ld').1 := by
  induction order generalizing ld ld' with
  | nil => rfl
  | cons seg rest ih =>
    obtain ⟨i, p⟩ := seg
    have went := @loadSeg_file σ fd p { ld with order := ld.order ++ [i] }
    have went' := @loadSeg_file σ fd p { ld' with order := ld'.order ++ [i] }
    simp only [loadSegs]
    rcases loaded : loadSeg fd p { ld with order := ld.order ++ [i] } with ⟨ok, next⟩
    rcases loaded' : loadSeg fd p { ld' with order := ld'.order ++ [i] } with ⟨ok', next'⟩
    rw [loaded] at went
    rw [loaded'] at went'
    simp only [same] at went went'
    rw [went] at went'
    cases ok <;> cases ok'
    · rfl
    · simp at went'
    · simp at went'
    · apply ih
      simpa using went'

theorem onHeap_congr {a b : Nat} (same : phys a = phys b) : mdOnHeapSpace a ↔ mdOnHeapSpace b := by
  simp only [mdOnHeapSpace, same]

theorem segments_heapSafe {order : List (Nat × Phdr)}
    (clear : ∀ seg ∈ order, HeapClear (wrap seg.2.pVaddr) (span seg.2)) (file : σ) :
    HeapSafe fd file order := by
  induction order generalizing file with
  | nil => trivial
  | cons seg rest ih =>
    obtain ⟨i, p⟩ := seg
    have here : ∀ k < span p, ¬ mdOnHeapSpace (wrap p.pVaddr + k) :=
      (heapClear_iff _ _).mp (clear (i, p) List.mem_cons_self)
    refine ⟨?_, fun next _ => ih (fun seg member => clear seg (List.mem_cons_of_mem _ member)) next⟩
    intro _ _
    constructor
    · apply (heapClear_iff _ _).mpr
      intro k bound
      apply here
      have less := wrap_le p.pFilesz
      have short := fd.fits (fd.lseek file (wrap p.pOffset)).2 (wrap p.pFilesz)
      unfold delivered at bound
      unfold span
      split at bound
      · omega
      · simp at bound
    · intro _ longer
      apply (heapClear_iff _ _).mpr
      intro k bound
      have less := wrap_le (p.pMemsz - p.pFilesz)
      have inside := here (p.pFilesz + k) (by unfold span; omega)
      rw [onHeap_congr (phys_wrap_add _ _)] at inside ⊢
      rw [Nat.add_assoc]
      exact inside

/-- Segments that fit in memory, do not overlap one another and keep clear of the heap, where the loader
    has its tables. -/
structure Arranged (tab : List Phdr) : Prop where
  whole : ∀ p ∈ tab, p.pType = ptLoad → span p ≤ 2^29
  offHeap : ∀ p ∈ tab, p.pType = ptLoad → HeapClear (wrap p.pVaddr) (span p)
  apart : ∀ (i j : Nat) (p q : Phdr), tab[i]? = some p → tab[j]? = some q → i ≠ j → p.pType = ptLoad →
    q.pType = ptLoad → Apart p q

structure LoadedWhole (content : List UInt8) (tab : List Phdr) (last : Loading σ) : Prop where
  images : ∀ p ∈ tab, p.pType = ptLoad → Image content last.mem p
  once : last.order.Nodup
  all : ∀ i, i ∈ last.order ↔ ∃ p, tab[i]? = some p ∧ p.pType = ptLoad
  ascending : last.order.Pairwise fun i j => ∀ p q : Phdr, tab[i]? = some p → tab[j]? = some q →
    p.pOffset ≤ q.pOffset

/-- What the loader copes with in a segment: an offset other than the one its search starts from, no memory
    to clear for a segment without bytes in the file, and an offset that a `long` can tell. -/
structure Loadable (lay : Layout) (p : Phdr) : Prop where
  found : p.pOffset < topOff lay
  sized : p.pFilesz = 0 → p.pMemsz = 0
  near : p.pFilesz ≠ 0 → p.pOffset < 2^32

section

variable {tab : List Phdr}

theorem Arranged.order (arranged : Arranged tab) :
    (loadOrder lay tab.length tab).Pairwise fun x y => Apart x.2 y.2 := by
  have distinct := List.pairwise_map.mp (@loadOrder_nodup lay _ tab List.countP_le_length)
  apply distinct.imp_of_mem
  intro x y first second different
  obtain ⟨entry, findable⟩ := (mem_loadOrder List.countP_le_length x.1 x.2).mp first
  obtain ⟨entry', findable'⟩ := (mem_loadOrder List.countP_le_length y.1 y.2).mp second
  exact arranged.apart x.1 y.1 x.2 y.2 entry entry' different findable.1 findable'.1

theorem Arranged.heapSafe (arranged : Arranged tab) (file : σ) :
    HeapSafe fd file (loadOrder lay tab.length tab) := by
  apply segments_heapSafe
  intro seg member
  obtain ⟨entry, findable⟩ := (mem_loadOrder List.countP_le_length seg.1 seg.2).mp member
  exact arranged.offHeap seg.2 (List.mem_of_getElem? entry) findable.1

theorem Arranged.off (arranged : Arranged tab) {p : Phdr} (member : p ∈ tab)
    (load : p.pType = ptLoad) {k : Nat} (bound : k < span p) : ¬ mdOnHeapSpace (p.pVaddr + k) := by
  have clear := (heapClear_iff _ _).mp (arranged.offHeap p member load) k bound
  rwa [onHeap_congr (phys_wrap_add _ _)] at clear

theorem segments_loaded (serves : fd.Serves content) (arranged : Arranged tab)
    (loadable : ∀ p ∈ tab, p.pType = ptLoad → Loadable lay p) {ld last : Loading σ} (fresh : ld.order = [])
    (accepted : (loadSegs fd (loadOrder lay tab.length tab) ld).1 = true)
    (alike : Alike last (loadSegs fd (loadOrder lay tab.length tab) ld).2) :
    LoadedWhole content tab last := by
  have order : last.order = (loadOrder lay tab.length tab).map Prod.fst := by
    rw [alike.order, loadSegs_order accepted, fresh, List.nil_append]
  have found : ∀ i p, (i, p) ∈ loadOrder lay tab.length tab ↔ tab[i]? = some p ∧ Findable lay p :=
    mem_loadOrder List.countP_le_length
  constructor
  · intro p member load
    obtain ⟨top, sized, near⟩ := loadable p member load
    by_cases empty : p.pFilesz = 0
    · have nothing := sized empty
      constructor
      · rw [empty]
        rfl
      · intro k _ high
        omega
    · obtain ⟨i, entry⟩ := List.mem_iff_getElem?.mp member
      have image := loadSegs_image serves accepted
        (by
          intro seg member'
          obtain ⟨entry', findable⟩ := (found seg.1 seg.2).mp member'
          exact arranged.whole seg.2 (List.mem_of_getElem? entry') findable.1)
        arranged.order ((found i p).mpr ⟨entry, load, top⟩) empty (near empty)
      apply image.kept
      intro k bound
      exact alike.mem _ (arranged.off member load bound)
  · rw [order]
    exact loadOrder_nodup List.countP_le_length
  · intro i
    rw [order]
    constructor
    · intro member
      obtain ⟨⟨j, p⟩, taken, rfl⟩ := List.mem_map.mp member
      obtain ⟨entry, findable⟩ := (found j p).mp taken
      exact ⟨p, entry, findable.1⟩
    · intro ⟨p, entry, load⟩
      have top := (loadable p (List.mem_of_getElem? entry) load).found
      exact List.mem_map.mpr ⟨(i, p), (found i p).mpr ⟨entry, load, top⟩, rfl⟩
  · rw [order, List.pairwise_map]
    apply (loadOrder_sorted List.countP_le_length).imp_of_mem
    intro x y first second less p q entry entry'
    have same := ((found x.1 x.2).mp first).1.symm.trans entry
    have same' := ((found y.1 y.2).mp second).1.symm.trans entry'
    rw [← Option.some.inj same, ← Option.some.inj same']
    exact less

end

section

variable {ld : Loading σ}

theorem accepted_anyhow (placed : blk.Placed lay (blk.phdrs lay ld.mem).length)
    (arranged : Arranged (blk.phdrs lay ld.mem)) {fuel : Nat} {entry : Option Nat} {last : Loading σ}
    (left : loadLoop lay fd blk fuel ld = some (.success, entry, last)) {ram : Memory}
    (kept : HeapKept ld.mem ram) :
    ∃ entry last, loadLoop lay fd blk ((blk.phdrs lay ld.mem).length + 1) { ld with mem := ram } =
        some (.success, entry, last) ∧
      Alike last (loadSegs fd (loadOrder lay (blk.phdrs lay ld.mem).length (blk.phdrs lay ld.mem))
        { ld with mem := ram }).2 ∧
      (loadSegs fd (loadOrder lay (blk.phdrs lay ld.mem).length (blk.phdrs lay ld.mem))
        { ld with mem := ram }).1 = true := by
  obtain ⟨out, left', _, verdict⟩ := @loop_loads σ lay fd blk _ ld ld ⟨rfl, rfl, fun _ _ => rfl⟩ placed
    List.countP_le_length (arranged.heapSafe ld.file)
  have same := loop_unique left left'
  have good := verdict.mp (same ▸ rfl)
  have table := Tables.phdrs_kept kept placed
  obtain ⟨⟨res, entry, last⟩, left, alike, verdict⟩ := @loop_loads σ lay fd blk (blk.phdrs lay ld.mem).length
    { ld with mem := ram } { ld with mem := ram } ⟨rfl, rfl, fun _ _ => rfl⟩
    (by rw [table]; exact placed) (by rw [table]; exact List.countP_le_length)
    (by rw [table]; exact arranged.heapSafe ld.file)
  rw [table] at alike verdict
  have good' := (@loadSegs_verdict σ fd _ { ld with mem := ram } ld rfl).trans good
  have success : res = .success := verdict.mpr good'
  exact ⟨entry, last, success ▸ left, alike, good'⟩

def onesOff (mem : Memory) : Memory := fun x => if mdOnHeapSpace x then mem x else 1

theorem onesOff_kept (mem : Memory) : HeapKept mem (onesOff mem) := by
  intro x onHeap
  exact if_pos ((onHeap_congr (Nat.mod_mod x _)).mpr onHeap)

theorem onesOff_off (mem : Memory) {x : Nat} (off : ¬ mdOnHeapSpace x) : onesOff mem (phys x) = 1 :=
  if_neg fun inside => off ((onHeap_congr (Nat.mod_mod x _)).mp inside)

theorem unsized_untouched {tab : List Phdr} (arranged : Arranged tab) {i : Nat} {p : Phdr}
    (there : tab[i]? = some p)
    (load : p.pType = ptLoad) (empty : p.pFilesz = 0) {k : Nat} (bound : k < span p) :
    (loadSegs fd (loadOrder lay tab.length tab) ld).2.mem (phys (p.pVaddr + k)) =
      ld.mem (phys (p.pVaddr + k)) := by
  apply loadSegs_frame
  intro seg taken nonempty l less
  obtain ⟨there', findable⟩ := (mem_loadOrder List.countP_le_length seg.1 seg.2).mp taken
  have different : seg.1 ≠ i := by
    intro equal
    rw [equal] at there'
    rw [Option.some.inj (there'.symm.trans there)] at nonempty
    exact nonempty empty
  exact arranged.apart seg.1 i seg.2 p there' there different findable.1 load l less k bound

end

/-- A file that is accepted is loaded whole, whatever the memory outside the heap held before, exactly when
    the loader copes with each of its segments. -/
theorem elf_image_whole_iff (lay : Layout) (fd : Fd σ) (content : List UInt8) (serves : fd.Serves content)
    (small : content.length ≤ 2^32) (elfhdr ephdrtab : Option Nat) (mem : Memory) (file : σ) (blk : Tables)
    (ld : Loading σ) (opened : openElf lay fd elfhdr ephdrtab mem file = .ok (blk, ld))
    (placed : blk.Placed lay (blk.phdrs lay ld.mem).length) (arranged : Arranged (blk.phdrs lay ld.mem))
    (accepted : ∃ fuel entry last, loader lay fd elfhdr ephdrtab fuel mem file =
      some (.success, entry, last)) :
    (∀ ram, HeapKept ld.mem ram → ∃ entry last,
        loadLoop lay fd blk ((blk.phdrs lay ld.mem).length + 1) { ld with mem := ram } =
          some (.success, entry, last) ∧ LoadedWhole content (blk.phdrs lay ld.mem) last) ↔
      ∀ p ∈ blk.phdrs lay ld.mem, p.pType = ptLoad → Loadable lay p := by
  have fresh := @openElf_stores σ lay fd elfhdr ephdrtab mem file
  rw [opened] at fresh
  obtain ⟨fuel, entry, last, left⟩ := accepted
  simp only [loader, opened] at left
  have runs : ∀ {ram}, HeapKept ld.mem ram → _ := fun {ram} kept =>
    @accepted_anyhow σ lay fd blk ld placed arranged
    fuel entry last left ram kept
  constructor
  · intro whole p member load
    obtain ⟨i, there⟩ := List.mem_iff_getElem?.mp member
    constructor
    · obtain ⟨_, _, left, loaded⟩ := whole ld.mem (HeapKept.refl _)
      obtain ⟨_, _, left', alike, good⟩ := runs (HeapKept.refl _)
      have same := loop_unique left left'
      simp only [Prod.mk.injEq] at same
      have taken := (loaded.all i).mpr ⟨p, there, load⟩
      rw [same.2.2, alike.order, loadSegs_order good] at taken
      simp only [fresh.2, List.nil_append] at taken
      obtain ⟨⟨j, q⟩, seg, rfl⟩ := List.mem_map.mp taken
      obtain ⟨there', findable⟩ := (mem_loadOrder List.countP_le_length j q).mp seg
      rw [Option.some.inj (there.symm.trans there')]
      exact findable.2
    · intro empty
      by_contra more
      obtain ⟨_, _, left, loaded⟩ := whole _ (onesOff_kept ld.mem)
      obtain ⟨_, _, left', alike, good⟩ := runs (onesOff_kept ld.mem)
      have same := loop_unique left left'
      simp only [Prod.mk.injEq] at same
      have reach : 0 < span p := by
        unfold span
        omega
      have off := arranged.off member load reach
      have zero := (loaded.images p member load).zeros 0 (by omega) (by omega)
      rw [same.2.2, alike.mem _ off, unsized_untouched arranged there load empty reach] at zero
      exact absurd ((onesOff_off ld.mem off).symm.trans zero) (by decide)
    · intro nonempty
      obtain ⟨_, _, _, loaded⟩ := whole ld.mem (HeapKept.refl _)
      have bytes := congrArg List.length (loaded.images p member load).bytes
      simp only [fetched, List.length_map, List.length_range, List.length_take, List.length_drop] at bytes
      omega
  · intro loadable ram kept
    obtain ⟨entry, last, left, alike, good⟩ := runs kept
    exact ⟨entry, last, left,
      @segments_loaded σ lay fd content _ serves arranged loadable { ld with mem := ram }
        last fresh.2 good alike⟩

theorem plainFile_serves (content : List UInt8) : (plainFile content).Serves content := by
  intro pos off pos' sought n
  obtain rfl : off = pos' := (Prod.mk.inj sought).2
  exact List.take_prefix n _

theorem small_kernel_whole :
    ∃ blk ld, openElf elf32 (plainFile smallKernel) (some heapBase) (some (heapBase + 64)) (fun _ => 1) 0 =
        .ok (blk, ld) ∧
      ∀ ram, HeapKept ld.mem ram → ∃ entry last,
        loadLoop elf32 (plainFile smallKernel) blk 2 { ld with mem := ram } = some (.success, entry, last) ∧
          LoadedWhole smallKernel [⟨1, 84, 0x80200000, 2, 4⟩] last := by
  have checked :
      ((openElf elf32 (plainFile smallKernel) (some heapBase) (some (heapBase + 64)) (fun _ => 1)
          0).toOption.any fun r =>
      decide (r.1.phdrs elf32 r.2.mem = [⟨1, 84, 0x80200000, 2, 4⟩] ∧ r.1.Placed elf32 1) &&
        (loader elf32 (plainFile smallKernel) (some heapBase) (some (heapBase + 64)) 2 (fun _ => 1)
            0).any fun out =>
          decide (out.1 = .success)) = true := by decide +kernel
  rcases opened : openElf elf32 (plainFile smallKernel) (some heapBase) (some (heapBase + 64))
      (fun _ => 1) 0 with
    ld | ⟨blk, ld⟩
  · rw [opened] at checked
    cases checked
  · rw [opened] at checked
    simp only [Except.toOption, Option.any_some, Bool.and_eq_true, decide_eq_true_eq] at checked
    obtain ⟨⟨table, placed⟩, ran⟩ := checked
    refine ⟨blk, ld, rfl, ?_⟩
    have whole := elf_image_whole_iff elf32 (plainFile smallKernel) smallKernel (plainFile_serves _)
      (by decide)
      (some heapBase) (some (heapBase + 64)) (fun _ => 1) 0 blk ld opened (by rw [table]; exact placed)
      (by
        rw [table]
        refine ⟨by decide, by decide, ?_⟩
        intro i j p q first second different
        have first' := (List.getElem?_eq_some_iff.mp first).1
        have second' := (List.getElem?_eq_some_iff.mp second).1
        simp only [List.length_singleton] at first' second'
        omega)
      (by
        refine ⟨2, ?_⟩
        rcases loaded : loader elf32 (plainFile smallKernel) (some heapBase) (some (heapBase + 64))
            2 (fun _ => 1) 0 with
          _ | ⟨res, entry, last⟩
        · rw [loaded] at ran
          cases ran
        · rw [loaded] at ran
          obtain rfl : res = .success := of_decide_eq_true ran
          exact ⟨entry, last, rfl⟩)
    rw [table] at whole
    apply whole.mpr
    intro p member _
    rw [List.mem_singleton] at member
    subst member
    exact ⟨by decide, by decide, by decide⟩

def bssKernel : List UInt8 := elf32File [⟨1, 84, 0x80200000, 0, 4⟩] []

theorem bss_kernel_not_cleared :
    ∃ entry last, elf32Loader (plainFile bssKernel) (some heapBase) (some (heapBase + 64)) 2 (fun _ => 1) 0 =
        some (.success, entry, last) ∧
      last.order = [0] ∧ ¬ Image bssKernel last.mem ⟨1, 84, 0x80200000, 0, 4⟩ := by
  have checked :
      ((elf32Loader (plainFile bssKernel) (some heapBase) (some (heapBase + 64)) 2 (fun _ => 1)
          0).any fun out =>
      decide (out.1 = .success ∧ out.2.2.order = [0] ∧ out.2.2.mem (phys (0x80200000 + 0)) = 1)) =
        true := by decide +kernel
  rcases loaded : elf32Loader (plainFile bssKernel) (some heapBase) (some (heapBase + 64)) 2
      (fun _ => 1) 0 with
    _ | ⟨res, entry, last⟩
  · rw [loaded] at checked
    cases checked
  · rw [loaded] at checked
    obtain ⟨succeeded, order, ones⟩ := of_decide_eq_true checked
    obtain rfl : res = .success := succeeded
    refine ⟨entry, last, rfl, order, ?_⟩
    intro image
    have zero := image.zeros 0 (by decide) (by decide)
    exact absurd (ones.symm.trans zero) (by decide)

end Embryo.Exec
