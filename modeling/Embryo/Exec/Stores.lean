import Embryo.Exec.Heap

namespace Embryo.Exec

open Embryo.Machine

variable {σ : Type} {lay : Layout} {fd : Fd σ} {blk : Tables}

def loadSeg (fd : Fd σ) (p : Phdr) (ld : Loading σ) : Bool × Loading σ :=
  if p.pFilesz = 0 then (true, ld)
  else if ¬ chkloadaddr p then (false, ld)
  else
    match loadseg2mem fd p ld with
    | (false, ld) => (false, ld)
    | (true, ld) => (true, clearseg p ld)

def delivered (fd : Fd σ) (p : Phdr) (file : σ) : List UInt8 :=
  if (fd.lseek file (wrap p.pOffset)).1 then
    (fd.read (fd.lseek file (wrap p.pOffset)).2 (wrap p.pFilesz)).1 else []

def fileNext (fd : Fd σ) (p : Phdr) (file : σ) : Option σ :=
  if p.pFilesz = 0 then some file
  else if ¬ chkloadaddr p then none
  else
    match fd.lseek file (wrap p.pOffset) with
    | (false, _) => none
    | (true, file) =>
      let (_, returned, file) := fd.read file (wrap p.pFilesz)
      if returned = wrap p.pFilesz then some file else none

/-- The bytes delivered for a segment, and those cleared behind them, are clear of the heap. -/
def SegmentClear (fd : Fd σ) (p : Phdr) (file : σ) : Prop :=
  p.pFilesz ≠ 0 → chkloadaddr p → HeapClear (wrap p.pVaddr) (delivered fd p file).length ∧
    ((fileNext fd p file).isSome → p.pFilesz < p.pMemsz →
      HeapClear (wrap (p.pVaddr + p.pFilesz)) (wrap (p.pMemsz - p.pFilesz)))

def HeapSafe (fd : Fd σ) : σ → List (Nat × Phdr) → Prop
  | _, [] => True
  | file, (_, p) :: rest =>
    SegmentClear fd p file ∧ ∀ next, fileNext fd p file = some next → HeapSafe fd next rest

instance (fd : Fd σ) (p : Phdr) (file : σ) : Decidable (SegmentClear fd p file) :=
  inferInstanceAs (Decidable (_ → _ → _ ∧ (_ → _ → _)))

def decideHeapSafe (fd : Fd σ) : (order : List (Nat × Phdr)) → (file : σ) → Decidable (HeapSafe fd file order)
  | [], _ => isTrue trivial
  | (_, p) :: rest, file =>
    match went : fileNext fd p file with
    | none => decidable_of_iff (SegmentClear fd p file) (by simp [HeapSafe, went])
    | some next =>
      have := decideHeapSafe fd rest next
      decidable_of_iff (SegmentClear fd p file ∧ HeapSafe fd next rest) (by simp [HeapSafe, went])

instance (fd : Fd σ) (file : σ) (order : List (Nat × Phdr)) : Decidable (HeapSafe fd file order) :=
  decideHeapSafe fd order file

def AllClear (stores : List (Nat × Nat)) : Prop := ∀ st ∈ stores, HeapClear st.1 st.2

theorem allClear_append (first second : List (Nat × Nat)) :
    AllClear (first ++ second) ↔ AllClear first ∧ AllClear second := List.forall_mem_append

theorem put_clear (ld : Loading σ) (a : Nat) (data : List UInt8) :
    AllClear (ld.put a data).stores ↔ AllClear ld.stores ∧ HeapClear a data.length := by
  show AllClear (ld.stores ++ [(a, data.length)]) ↔ _
  rw [allClear_append]
  simp only [AllClear, List.mem_singleton, forall_eq]

theorem clearseg_clear (p : Phdr) (ld : Loading σ) :
    AllClear (clearseg p ld).stores ↔ AllClear ld.stores ∧
      (p.pFilesz < p.pMemsz → HeapClear (wrap (p.pVaddr + p.pFilesz)) (wrap (p.pMemsz - p.pFilesz))) := by
  unfold clearseg
  by_cases more : p.pFilesz < p.pMemsz
  · rw [if_pos more, put_clear, List.length_replicate]
    simp [more]
  · rw [if_neg more]
    simp [more]

theorem loadseg2mem_clear (p : Phdr) (ld : Loading σ) :
    AllClear (loadseg2mem fd p ld).2.stores ↔
      AllClear ld.stores ∧ HeapClear (wrap p.pVaddr) (delivered fd p ld.file).length := by
  unfold loadseg2mem delivered
  rcases sought : fd.lseek ld.file (wrap p.pOffset) with ⟨ok, file⟩
  cases ok with
  | false => simp [HeapClear]
  | true =>
    simp only [if_true]
    exact put_clear _ _ _

theorem loadSeg_file (p : Phdr) (ld : Loading σ) :
    fileNext fd p ld.file = if (loadSeg fd p ld).1 then some (loadSeg fd p ld).2.file else none := by
  unfold fileNext loadSeg
  by_cases empty : p.pFilesz = 0
  · simp [empty]
  · rw [if_neg empty, if_neg empty]
    by_cases bad : ¬ chkloadaddr p
    · simp [bad]
    · rw [if_neg bad, if_neg bad]
      unfold loadseg2mem
      rcases sought : fd.lseek ld.file (wrap p.pOffset) with ⟨ok, file⟩
      cases ok with
      | false => simp
      | true =>
        rcases got : fd.read file (wrap p.pFilesz) with ⟨data, returned, file'⟩
        by_cases whole : returned = wrap p.pFilesz
        · simp only [got, whole, if_true, decide_true]
          unfold clearseg
          split <;> rfl
        · simp [got, whole]

theorem loadSeg_loads {p : Phdr} {ld : Loading σ} {file : σ} (gone : fileNext fd p ld.file = some file) :
    ∃ ld', loadSeg fd p ld = (true, ld') ∧ ld'.file = file := by
  rw [loadSeg_file] at gone
  rcases loaded : loadSeg fd p ld with ⟨_ | _, ld'⟩
  · rw [loaded] at gone
    cases gone
  · rw [loaded] at gone
    exact ⟨ld', rfl, Option.some.inj gone⟩

theorem loadSeg_fails {p : Phdr} {ld : Loading σ} (gone : fileNext fd p ld.file = none) :
    ∃ ld', loadSeg fd p ld = (false, ld') := by
  rw [loadSeg_file] at gone
  rcases loaded : loadSeg fd p ld with ⟨_ | _, ld'⟩
  · exact ⟨ld', rfl⟩
  · rw [loaded] at gone
    cases gone

theorem loadSeg_clear (p : Phdr) (ld : Loading σ) :
    AllClear (loadSeg fd p ld).2.stores ↔ AllClear ld.stores ∧ SegmentClear fd p ld.file := by
  have next := @loadSeg_file σ fd p ld
  unfold SegmentClear
  rw [next]
  unfold loadSeg
  by_cases empty : p.pFilesz = 0
  · simp [empty]
  · rw [if_neg empty]
    by_cases bad : ¬ chkloadaddr p
    · simp [bad]
    · rw [if_neg bad]
      have good : chkloadaddr p := not_not.mp bad
      have moved := @loadseg2mem_clear σ fd p ld
      rcases loaded : loadseg2mem fd p ld with ⟨ok, ld'⟩
      rw [loaded] at moved
      cases ok with
      | false => simp [empty, good, moved]
      | true =>
        simp only [clearseg_clear, moved, if_true, Option.isSome_some, true_implies]
        simp only [ne_eq, empty, not_false_eq_true, good, true_implies, and_assoc]

theorem HeapKept.refl (mem : Memory) : HeapKept mem mem := fun _ _ => rfl

theorem loadseg2mem_kept {p : Phdr} {ld : Loading σ}
    (clear : HeapClear (wrap p.pVaddr) (delivered fd p ld.file).length) :
    HeapKept ld.mem (loadseg2mem fd p ld).2.mem := by
  unfold loadseg2mem
  unfold delivered at clear
  rcases sought : fd.lseek ld.file (wrap p.pOffset) with ⟨ok, file⟩
  rw [sought] at clear
  cases ok with
  | false => exact HeapKept.refl _
  | true => exact store_heapKept clear

theorem clearseg_kept {p : Phdr} {ld : Loading σ}
    (clear : p.pFilesz < p.pMemsz → HeapClear (wrap (p.pVaddr + p.pFilesz)) (wrap (p.pMemsz - p.pFilesz))) :
    HeapKept ld.mem (clearseg p ld).mem := by
  unfold clearseg
  by_cases longer : p.pFilesz < p.pMemsz
  · rw [if_pos longer]
    apply store_heapKept
    rw [List.length_replicate]
    exact clear longer
  · rw [if_neg longer]
    exact HeapKept.refl _

theorem loadPass_eq {ld : Loading σ} {i : Nat} {p : Phdr} (next : lowest lay (blk.phdrs lay ld.mem) = some i)
    (entry : (blk.phdrs lay ld.mem)[i]? = some p) (placed : blk.Placed lay (blk.phdrs lay ld.mem).length)
    (clear : p.pFilesz ≠ 0 → chkloadaddr p → HeapClear (wrap p.pVaddr) (delivered fd p ld.file).length) :
    loadPass lay fd blk ld =
      match loadSeg fd p { ld with order := ld.order ++ [i] } with
      | (false, ld) => .leave (.loadErr, none, ld)
      | (true, ld) => .again (ld.retire (blk.ephdr lay i)) := by
  have here := Tables.phdrs_get entry
  have bound : i < (blk.phdrs lay ld.mem).length := (List.getElem?_eq_some_iff.mp entry).1
  unfold loadPass loadSeg
  rw [next]
  simp only [here]
  by_cases empty : p.pFilesz = 0
  · simp only [empty, if_true]
  · simp only [empty, if_false]
    by_cases bad : ¬ chkloadaddr p
    · simp only [bad, if_true, not_false_eq_true]
    · simp only [bad, if_false]
      have kept := @loadseg2mem_kept σ fd p { ld with order := ld.order ++ [i] }
        (clear empty (not_not.mp bad))
      rcases loaded : loadseg2mem fd p { ld with order := ld.order ++ [i] } with ⟨ok, ld'⟩
      rw [loaded] at kept
      cases ok with
      | false => rfl
      | true =>
        have same : phdrAt lay ld'.mem (blk.ephdr lay i) = p := by
          apply Tables.phdrs_get
          rw [Tables.phdrs_kept kept placed]
          exact entry
        simp only [same]

theorem loadSeg_kept {p : Phdr} {ld : Loading σ} (clear : SegmentClear fd p ld.file) :
    HeapKept ld.mem (loadSeg fd p ld).2.mem := by
  have next := @loadSeg_file σ fd p ld
  unfold SegmentClear at clear
  rw [next] at clear
  unfold loadSeg at clear ⊢
  by_cases empty : p.pFilesz = 0
  · rw [if_pos empty]
    exact HeapKept.refl _
  · rw [if_neg empty] at clear ⊢
    by_cases bad : ¬ chkloadaddr p
    · rw [if_pos bad]
      exact HeapKept.refl _
    · rw [if_neg bad] at clear ⊢
      obtain ⟨front, back⟩ := clear empty (not_not.mp bad)
      have kept := loadseg2mem_kept front
      rcases loaded : loadseg2mem fd p ld with ⟨ok, ld'⟩
      rw [loaded] at kept back
      cases ok with
      | false => exact kept
      | true => exact kept.trans (clearseg_kept (back rfl))

def storesOf : Pass (Loading σ) (Outcome σ) → List (Nat × Nat)
  | .again ld => ld.stores
  | .leave (_, _, ld) => ld.stores

def StoresClear (stage : Pass (Loading σ) (Outcome σ)) : Prop := AllClear (storesOf stage)

theorem loadPass_spoils {ld : Loading σ} {i : Nat} {p : Phdr}
    (next : lowest lay (blk.phdrs lay ld.mem) = some i)
    (entry : (blk.phdrs lay ld.mem)[i]? = some p) (some' : p.pFilesz ≠ 0) (valid : chkloadaddr p)
    (bad : ¬ HeapClear (wrap p.pVaddr) (delivered fd p ld.file).length) :
    ¬ StoresClear (loadPass lay fd blk ld) := by
  have here := Tables.phdrs_get entry
  have moved := @loadseg2mem_clear σ fd p { ld with order := ld.order ++ [i] }
  unfold loadPass
  rw [next]
  simp only [here, some', valid, not_true_eq_false, if_false]
  rcases loaded : loadseg2mem fd p { ld with order := ld.order ++ [i] } with ⟨ok, ld'⟩
  rw [loaded] at moved
  cases ok with
  | false =>
    intro clear
    exact bad (moved.mp clear).2
  | true =>
    intro clear
    have before := ((clearseg_clear _ _).mp clear).1
    exact bad (moved.mp before).2

theorem phdrs_next {lay : Layout} {i : Nat} {ld ld' : Loading σ}
    (placed : blk.Placed lay (blk.phdrs lay ld.mem).length)
    (bound : i < (blk.phdrs lay ld.mem).length) (kept : HeapKept ld.mem ld'.mem) :
    blk.phdrs lay (ld'.retire (blk.ephdr lay i)).mem = retired (blk.phdrs lay ld.mem) i := by
  have same := Tables.phdrs_kept kept placed
  rw [← same]
  apply Tables.phdrs_retire
  · rw [same]
    exact placed
  · rw [same]
    exact bound

theorem stores_clear_stopped {ld : Loading σ} (stopped : lowest lay (blk.phdrs lay ld.mem) = none) (n : Nat) :
    (∀ count, StoresClear (passes (loadPass lay fd blk) count ld)) ↔
      AllClear ld.stores ∧ HeapSafe fd ld.file (loadOrder lay n (blk.phdrs lay ld.mem)) := by
  rw [forall_passes, loadOrder_none stopped]
  simp only [loadPass, stopped, StoresClear, storesOf, HeapSafe, and_self, and_true]

theorem stores_clear_iff {ld : Loading σ} {n : Nat} (placed : blk.Placed lay (blk.phdrs lay ld.mem).length)
    (enough : findables lay (blk.phdrs lay ld.mem) ≤ n) :
    (∀ count, StoresClear (passes (loadPass lay fd blk) count ld)) ↔
      AllClear ld.stores ∧ HeapSafe fd ld.file (loadOrder lay n (blk.phdrs lay ld.mem)) := by
  induction n generalizing ld with
  | zero =>
    rcases lowest_cases lay (blk.phdrs lay ld.mem) with ⟨stopped, _⟩ | ⟨i, p, _, entry, findable, _⟩
    · exact stores_clear_stopped stopped _
    · have fewer := findables_retired entry findable
      omega
  | succ n ih =>
    rcases lowest_cases lay (blk.phdrs lay ld.mem) with ⟨stopped, _⟩ | ⟨i, p, next, entry, findable, _⟩
    · exact stores_clear_stopped stopped _
    · have fewer := findables_retired entry findable
      have bound : i < (blk.phdrs lay ld.mem).length := (List.getElem?_eq_some_iff.mp entry).1
      rw [forall_passes, loadOrder_some next entry, HeapSafe]
      by_cases clear : p.pFilesz ≠ 0 → chkloadaddr p →
        HeapClear (wrap p.pVaddr) (delivered fd p ld.file).length
      · rw [loadPass_eq next entry placed clear]
        have stored := @loadSeg_clear σ fd p { ld with order := ld.order ++ [i] }
        have went := @loadSeg_file σ fd p { ld with order := ld.order ++ [i] }
        have kept := @loadSeg_kept σ fd p { ld with order := ld.order ++ [i] }
        rcases loaded : loadSeg fd p { ld with order := ld.order ++ [i] } with ⟨ok, ld'⟩
        rw [loaded] at stored went kept
        simp only at stored went kept
        cases ok with
        | false =>
          simp only [Bool.false_eq_true, if_false] at went
          simp only [StoresClear, storesOf, went, reduceCtorEq, false_implies, implies_true, and_true]
          constructor
          · exact fun both => stored.mp both.2
          · exact fun both => ⟨both.1, stored.mpr both⟩
        | true =>
          simp only [if_true] at went
          simp only [went, Option.some.injEq, forall_eq']
          by_cases safe : SegmentClear fd p ld.file
          · have after := phdrs_next placed bound (kept safe)
            rw [ih (by rw [after, retired_length]; exact placed) (by rw [after]; omega), after]
            show AllClear ld.stores ∧ AllClear ld'.stores ∧ HeapSafe fd ld'.file _ ↔ _
            rw [stored]
            constructor
            · rintro ⟨clean, ⟨_, here⟩, later⟩
              exact ⟨clean, here, later⟩
            · rintro ⟨clean, here, later⟩
              exact ⟨clean, ⟨clean, here⟩, later⟩
          · constructor
            · intro ⟨_, later⟩
              have now : AllClear ld'.stores := later 0
              exact absurd (stored.mp now).2 safe
            · intro ⟨_, here, _⟩
              exact absurd here safe
      · obtain ⟨nonempty, other⟩ := Classical.not_imp.mp clear
        obtain ⟨valid, near⟩ := Classical.not_imp.mp other
        have spoiled := @loadPass_spoils σ lay fd blk ld i p next entry nonempty valid near
        have unsafe' : ¬ SegmentClear fd p ld.file := by
          intro here
          exact clear fun some' valid => (here some' valid).1
        constructor
        · intro ⟨_, later⟩
          cases passed : loadPass lay fd blk ld with
          | again ld' =>
            rw [passed] at later spoiled
            exact absurd (later 0) spoiled
          | leave out =>
            rw [passed] at later spoiled
            exact absurd later spoiled
        · intro ⟨_, here, _⟩
          exact absurd here unsafe'

/-- Where `__elf32_loader` and `__elf64_loader` have stored bytes through the addresses of segments,
    after a number of passes. -/
def segmentStores (lay : Layout) (fd : Fd σ) (elfhdr ephdrtab : Option Nat) (mem : Memory)
    (file : σ) (count : Nat) :
    List (Nat × Nat) :=
  match openElf lay fd elfhdr ephdrtab mem file with
  | .error ld => ld.stores
  | .ok (blk, ld) => storesOf (passes (loadPass lay fd blk) count ld)

theorem openElf_stores {elfhdr ephdrtab : Option Nat} {mem : Memory} {file : σ} :
    match openElf lay fd elfhdr ephdrtab mem file with
    | .error ld => ld.stores = []
    | .ok (_, ld) => ld.stores = [] ∧ ld.order = [] := by
  unfold openElf
  cases elfhdr with
  | none => rfl
  | some elfhdr =>
    rcases fd.lseek file 0 with ⟨_ | _, file⟩
    · rfl
    · dsimp only
      split_ifs
      all_goals try rfl
      cases ephdrtab with
      | none => rfl
      | some ephdrtab =>
        rcases fd.lseek (fd.read file lay.ehdrSize).2.2 _ with ⟨_ | _, file⟩
        · rfl
        · dsimp only
          split_ifs
          · rfl
          · exact ⟨rfl, rfl⟩

/-- No byte of the heap is written, over the whole run, exactly when the segments are clear of the heap. -/
theorem heap_spared_iff (lay : Layout) (fd : Fd σ) (elfhdr ephdrtab : Option Nat) (mem : Memory) (file : σ)
    (placed : ∀ blk ld, openElf lay fd elfhdr ephdrtab mem file = .ok (blk, ld) →
      blk.Placed lay (blk.phdrs lay ld.mem).length) :
    (∀ count, ∀ st ∈ segmentStores lay fd elfhdr ephdrtab mem file count, ∀ k < st.2,
      ¬ mdOnHeapSpace (st.1 + k)) ↔
      ∀ blk ld, openElf lay fd elfhdr ephdrtab mem file = .ok (blk, ld) →
        HeapSafe fd ld.file (loadOrder lay (blk.phdrs lay ld.mem).length (blk.phdrs lay ld.mem)) := by
  simp only [← heapClear_iff]
  have fresh := @openElf_stores σ lay fd elfhdr ephdrtab mem file
  unfold segmentStores
  rcases opened : openElf lay fd elfhdr ephdrtab mem file with ld | ⟨blk, ld⟩
  · rw [opened] at fresh
    simp only at fresh
    simp only [fresh, List.not_mem_nil, false_implies, implies_true, reduceCtorEq]
  · rw [opened] at fresh
    simp only at fresh
    have all := @stores_clear_iff σ lay fd blk ld _ (placed blk ld opened) List.countP_le_length
    rw [fresh.1] at all
    have none' : AllClear ([] : List (Nat × Nat)) := fun _ member => absurd member List.not_mem_nil
    simp only [none', true_and] at all
    constructor
    · intro spared blk' ld' same
      obtain ⟨rfl, rfl⟩ := Prod.mk.inj (Except.ok.inj same)
      exact all.mp spared
    · intro safe
      exact all.mpr (safe blk ld rfl)

def plainFile (content : List UInt8) : Fd Nat where
  lseek := fun _ off => (true, off)
  read := fun pos n => ((content.drop pos).take n, ((content.drop pos).take n).length, pos + n)
  fits := fun _ _ => List.length_take_le _ _
  told := fun _ _ => Or.inl rfl

def half (x : Nat) : List UInt8 := [UInt8.ofNat x, UInt8.ofNat (x / 2^8)]

def word4 (x : Nat) : List UInt8 := half x ++ half (x / 2^16)

/-- A 32-bit executable: its header, the program headers right behind it, and what follows them. -/
def elf32File (segs : List Phdr) (rest : List UInt8) : List UInt8 :=
  [0x7f, 0x45, 0x4c, 0x46, 1, 1, 1, 0, 0, 0, 0, 0, 0, 0, 0, 0] ++ half etExec ++ half emMips ++ word4 1 ++
    word4 0x80200000 ++ word4 52 ++ word4 0 ++ word4 0 ++ half 52 ++ half 32 ++ half segs.length ++
    half 0 ++ half 0 ++ half 0 ++
    segs.flatMap (fun p => word4 p.pType ++ word4 p.pOffset ++ word4 p.pVaddr ++ word4 p.pVaddr ++
      word4 p.pFilesz ++ word4 p.pMemsz ++ word4 7 ++ word4 4) ++ rest

def smallKernel : List UInt8 := elf32File [⟨1, 84, 0x80200000, 2, 4⟩] [0x11, 0x22]

theorem small_kernel_spares_heap :
    (∀ blk ld, openElf elf32 (plainFile smallKernel) (some heapBase) (some (heapBase + 64)) (fun _ => 1) 0 =
      .ok (blk, ld) → blk.Placed elf32 (blk.phdrs elf32 ld.mem).length) ∧
    ∀ count, ∀ st ∈ segmentStores elf32 (plainFile smallKernel) (some heapBase)
      (some (heapBase + 64)) (fun _ => 1) 0 count, ∀ k < st.2, ¬ mdOnHeapSpace (st.1 + k) := by
  have checked : (match openElf elf32 (plainFile smallKernel) (some heapBase) (some (heapBase + 64))
      (fun _ => 1) 0 with
      | .ok (blk, ld) => decide (blk.Placed elf32 (blk.phdrs elf32 ld.mem).length ∧
          HeapSafe (plainFile smallKernel) ld.file
            (loadOrder elf32 (blk.phdrs elf32 ld.mem).length (blk.phdrs elf32 ld.mem)))
      | .error _ => true) = true := by decide +kernel
  have placed : ∀ blk ld, openElf elf32 (plainFile smallKernel) (some heapBase)
    (some (heapBase + 64)) (fun _ => 1) 0 =
      .ok (blk, ld) → blk.Placed elf32 (blk.phdrs elf32 ld.mem).length := by
    intro blk ld opened
    rw [opened] at checked
    exact (of_decide_eq_true checked).1
  refine ⟨placed, ?_⟩
  apply (heap_spared_iff elf32 (plainFile smallKernel) _ _ _ _ placed).mpr
  intro blk ld opened
  rw [opened] at checked
  exact (of_decide_eq_true checked).2

def longKernel : List UInt8 := elf32File [⟨1, 84, 0x8f3fffff, 2, 0⟩] [0x11, 0x22]

theorem long_kernel_hits_heap :
    ∃ st ∈ segmentStores elf32 (plainFile longKernel) (some heapBase) (some (heapBase + 64)) (fun _ => 1) 0 1,
      ∃ k < st.2, mdOnHeapSpace (st.1 + k) := by
  have stored : segmentStores elf32 (plainFile longKernel) (some heapBase) (some (heapBase + 64))
    (fun _ => 1) 0 1 =
      [(0x8f3fffff, 2)] := by decide +kernel
  rw [stored]
  exact ⟨_, List.mem_singleton.mpr rfl, 1, by decide, by decide⟩

end Embryo.Exec
