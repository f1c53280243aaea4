import Embryo.Exec.Classes

namespace Embryo.Exec

open Embryo.Machine

variable {σ τ P Q : Type} {fd : Fd σ} {fd' : Fd τ} {C : ElfClass σ P} {view : P → Phdr} {blk : Tables}

def passActions (lay : Layout) (fd : Fd σ) (blk : Tables) (ld : Loading σ) : List Action :=
  match lowest lay (blk.phdrs lay ld.mem) with
  | none => []
  | some i =>
    let p := phdrAt lay ld.mem (blk.ephdr lay i)
    if p.pFilesz = 0 then []
    else if ¬ chkloadaddr p then [checkAction p]
    else
      checkAction p :: loadActions fd p ld.file ++
        match loadseg2mem fd p { ld with order := ld.order ++ [i] } with
        | (false, _) => []
        | (true, ld) =>
          if Misaligned (phdrAt lay ld.mem (blk.ephdr lay i)) then []
            else clearActions (phdrAt lay ld.mem (blk.ephdr lay i))

def passStops (lay : Layout) (fd : Fd σ) (blk : Tables) (ld : Loading σ) : Option (Loading σ) :=
  match lowest lay (blk.phdrs lay ld.mem) with
  | none => none
  | some i =>
    let p := phdrAt lay ld.mem (blk.ephdr lay i)
    if p.pFilesz = 0 then none
    else if ¬ chkloadaddr p then none
    else
      match loadseg2mem fd p { ld with order := ld.order ++ [i] } with
      | (false, _) => none
      | (true, ld) => if Misaligned (phdrAt lay ld.mem (blk.ephdr lay i)) then some ld else none

theorem class_lowest (numbers : InNumbers C fd view) (mem : Memory) :
    C.lowest ((List.range (field mem (blk.elfhdr + C.lay.ePhnum) 2)).map fun i =>
      C.phdrAt mem (blk.ephdr C.lay i)) =
      lowest C.lay (blk.phdrs C.lay mem) := by
  rw [numbers.lowest, List.map_map, Tables.phdrs]
  congr 2
  funext i
  exact numbers.phdrAt _ _

theorem classPass_stopped (numbers : InNumbers C fd view) {w : Watched σ}
    (stopped : lowest C.lay (blk.phdrs C.lay w.ld.mem) = none) :
    classPass C blk w = .leave (some .success,
      some (.ofNat (field w.ld.mem (blk.elfhdr + C.lay.eEntry) C.lay.word)), w) := by
  unfold classPass
  dsimp only
  rw [class_lowest numbers, stopped]
  dsimp only
  rw [numbers.entry]

theorem classPass_eq (numbers : InNumbers C fd view) (w : Watched σ) :
    classPass C blk w =
      match passStops C.lay fd blk w.ld with
      | some ld => .leave (none, none, ⟨ld, w.actions ++ passActions C.lay fd blk w.ld⟩)
      | none =>
        match loadPass C.lay fd blk w.ld with
        | .again ld => .again ⟨ld, w.actions ++ passActions C.lay fd blk w.ld⟩
        | .leave (res, entry, ld) =>
            .leave (some res, entry.map UInt32.ofNat, ⟨ld, w.actions ++ passActions C.lay fd blk w.ld⟩) := by
  unfold classPass loadPass passActions passStops
  dsimp only
  rw [class_lowest numbers]
  cases found : lowest C.lay (blk.phdrs C.lay w.ld.mem) with
  | none =>
    simp only [numbers.entry, List.append_nil, Option.map_some]
    have low : UInt32.ofNat (wrap (field w.ld.mem (blk.elfhdr + C.lay.eEntry) C.lay.word)) =
        UInt32.ofNat (field w.ld.mem (blk.elfhdr + C.lay.eEntry) C.lay.word) := by
      apply UInt32.toNat.inj
      rw [UInt32.toNat_ofNat', UInt32.toNat_ofNat', wrap, Nat.mod_mod]
    rw [low]
  | some i =>
    simp only [numbers.unsized, numbers.chkloadaddr, numbers.phdrAt]
    by_cases empty : (phdrAt C.lay w.ld.mem (blk.ephdr C.lay i)).pFilesz = 0
    · simp [empty]
    · simp only [empty, decide_false, Bool.false_eq_true, if_false]
      by_cases good : chkloadaddr (phdrAt C.lay w.ld.mem (blk.ephdr C.lay i))
      · simp only [good, decide_true, not_true_eq_false, if_false, numbers.loadseg2mem, numbers.phdrAt]
        rcases loadseg2mem fd (phdrAt C.lay w.ld.mem (blk.ephdr C.lay i))
          { w.ld with order := w.ld.order ++ [i] } with ⟨_ | _, ld⟩
        · simp
        · by_cases odd : Misaligned (phdrAt C.lay ld.mem (blk.ephdr C.lay i))
          · simp [numbers.chksum, numbers.phdrAt, odd]
          · simp [numbers.chksum, numbers.clearseg, numbers.phdrAt, odd]
      · simp [good]

theorem classLoader_loader (numbers : InNumbers C fd view) (elfhdr ephdrtab : Option Nat)
    (fuel : Nat) (mem : Memory) (file : σ) :
    (∃ w, classLoader C fd elfhdr ephdrtab fuel mem file = some (none, none, w)) ∨
      (classLoader C fd elfhdr ephdrtab fuel mem file).map (fun out => (out.1, out.2.1, out.2.2.ld)) =
        (loader C.lay fd elfhdr ephdrtab fuel mem file).map fun out =>
          (some out.1, out.2.1.map UInt32.ofNat, out.2.2) := by
  unfold classLoader loader
  cases openElf C.lay fd elfhdr ephdrtab mem file with
  | error ld => exact .inr rfl
  | ok opened =>
    obtain ⟨blk, ld⟩ := opened
    dsimp only
    unfold loadLoop
    have run : ∀ (actions : List Action),
      (∃ w, loop (fun w => some (classPass C blk w)) fuel ⟨ld, actions⟩ = some (none, none, w)) ∨
        (loop (fun w => some (classPass C blk w)) fuel ⟨ld, actions⟩).map
          (fun out => (out.1, out.2.1, out.2.2.ld)) =
          (loop (fun ld => some (loadPass C.lay fd blk ld)) fuel ld).map fun out =>
              (some out.1, out.2.1.map UInt32.ofNat, out.2.2) := by
      induction fuel generalizing ld with
      | zero => exact fun _ => .inr rfl
      | succ fuel ih =>
        intro actions
        rw [loop, loop, classPass_eq numbers]
        dsimp only
        cases passStops C.lay fd blk ld with
        | some stopped => exact .inl ⟨_, rfl⟩
        | none =>
          dsimp only
          cases loadPass C.lay fd blk ld with
          | again next => exact ih next _
          | leave out => exact .inr rfl
    exact run []

def segmentActions (fd : Fd σ) (p : Phdr) (file : σ) : List Action :=
  if p.pFilesz = 0 then []
  else if ¬ chkloadaddr p then [checkAction p]
  else checkAction p :: loadActions fd p file ++ if (fileNext fd p file).isSome ∧
    ¬ Misaligned p then clearActions p else []

def SegmentStops (fd : Fd σ) (p : Phdr) (file : σ) : Prop :=
  p.pFilesz ≠ 0 ∧ chkloadaddr p ∧ (fileNext fd p file).isSome ∧ Misaligned p

instance (fd : Fd σ) (p : Phdr) (file : σ) : Decidable (SegmentStops fd p file) :=
  inferInstanceAs (Decidable (_ ∧ _ ∧ _ ∧ _))

theorem pass_segment {lay : Layout} {ld : Loading σ} {i : Nat} {p : Phdr}
    (next : lowest lay (blk.phdrs lay ld.mem) = some i)
    (entry : (blk.phdrs lay ld.mem)[i]? = some p) (placed : blk.Placed lay (blk.phdrs lay ld.mem).length)
    (clear : p.pFilesz ≠ 0 → chkloadaddr p → HeapClear (wrap p.pVaddr) (delivered fd p ld.file).length) :
    passActions lay fd blk ld = segmentActions fd p ld.file ∧
      passStops lay fd blk ld =
        if SegmentStops fd p ld.file then
          some (loadseg2mem fd p { ld with order := ld.order ++ [i] }).2 else none := by
  have went := @loadSeg_file σ fd p { ld with order := ld.order ++ [i] }
  unfold passActions passStops segmentActions
  rw [next]
  dsimp only
  rw [Tables.phdrs_get entry]
  by_cases empty : p.pFilesz = 0
  · simp [SegmentStops, empty]
  · rw [if_neg empty, if_neg empty, if_neg empty]
    by_cases bad : ¬ chkloadaddr p
    · simp [SegmentStops, bad]
    · rw [if_neg bad, if_neg bad, if_neg bad]
      have good := not_not.mp bad
      have kept := @loadseg2mem_kept σ fd p { ld with order := ld.order ++ [i] } (clear empty good)
      unfold loadSeg at went
      rw [if_neg empty, if_neg bad] at went
      rcases loaded : loadseg2mem fd p { ld with order := ld.order ++ [i] } with ⟨_ | _, ld'⟩
      · rw [loaded] at went
        dsimp only at went
        simp [SegmentStops, went]
      · rw [loaded] at went kept
        dsimp only at went
        have same : phdrAt lay ld'.mem (blk.ephdr lay i) = p := by
          apply Tables.phdrs_get
          rw [Tables.phdrs_kept kept placed]
          exact entry
        dsimp only
        rw [same]
        by_cases odd : Misaligned p
        · simp [SegmentStops, went, odd, empty, good]
        · simp [SegmentStops, went, odd]

theorem classPass_segment (numbers : InNumbers C fd view) {w : Watched σ} {i : Nat} {p : Phdr}
    (next : lowest C.lay (blk.phdrs C.lay w.ld.mem) = some i)
    (entry : (blk.phdrs C.lay w.ld.mem)[i]? = some p)
    (placed : blk.Placed C.lay (blk.phdrs C.lay w.ld.mem).length)
    (front : p.pFilesz ≠ 0 → chkloadaddr p → HeapClear (wrap p.pVaddr) (delivered fd p w.ld.file).length) :
    classPass C blk w =
      if SegmentStops fd p w.ld.file then
        .leave (none, none, ⟨(loadseg2mem fd p { w.ld with order := w.ld.order ++ [i] }).2,
          w.actions ++ segmentActions fd p w.ld.file⟩)
      else
        match loadSeg fd p { w.ld with order := w.ld.order ++ [i] } with
        | (false, ld) => .leave (some .loadErr, none, ⟨ld, w.actions ++ segmentActions fd p w.ld.file⟩)
        | (true, ld) =>
            .again ⟨ld.retire (blk.ephdr C.lay i), w.actions ++ segmentActions fd p w.ld.file⟩ := by
  obtain ⟨actions, stops⟩ := pass_segment next entry placed front
  rw [classPass_eq numbers, loadPass_eq next entry placed front, actions, stops]
  by_cases here : SegmentStops fd p w.ld.file
  · rw [if_pos here, if_pos here]
  · rw [if_neg here, if_neg here]
    rcases loadSeg fd p { w.ld with order := w.ld.order ++ [i] } with ⟨_ | _, ld⟩ <;> rfl

/-- Two files that deliver the same bytes for a segment; `related` is what holds of them as they are read. -/
structure SameSegment (fd : Fd σ) (fd' : Fd τ) (related : σ → τ → Prop) (p : Phdr) : Prop where
  sought : ∀ s t, related s t → (fd'.lseek t (wrap p.pOffset)).1 = (fd.lseek s (wrap p.pOffset)).1
  data : ∀ s t, related s t → (fd'.read (fd'.lseek t (wrap p.pOffset)).2 (wrap p.pFilesz)).1 =
    (fd.read (fd.lseek s (wrap p.pOffset)).2 (wrap p.pFilesz)).1
  returned : ∀ s t, related s t →
    (fd'.read (fd'.lseek t (wrap p.pOffset)).2 (wrap p.pFilesz)).2.1 =
      (fd.read (fd.lseek s (wrap p.pOffset)).2 (wrap p.pFilesz)).2.1
  left : ∀ s t, related s t →
    related (fd.read (fd.lseek s (wrap p.pOffset)).2 (wrap p.pFilesz)).2.2
      (fd'.read (fd'.lseek t (wrap p.pOffset)).2 (wrap p.pFilesz)).2.2

variable {related : σ → τ → Prop} {p : Phdr} {s : σ} {t : τ}

theorem SameSegment.fileNext (same : SameSegment fd fd' related p) (start : related s t) :
    (∃ s' t', fileNext fd p s = some s' ∧ fileNext fd' p t = some t' ∧ related s' t') ∨
      fileNext fd p s = none ∧ fileNext fd' p t = none := by
  have sought := same.sought s t start
  have returned := same.returned s t start
  have left := same.left s t start
  unfold Exec.fileNext
  by_cases empty : p.pFilesz = 0
  · rw [if_pos empty, if_pos empty]
    exact .inl ⟨s, t, rfl, rfl, start⟩
  · rw [if_neg empty, if_neg empty]
    by_cases bad : ¬ chkloadaddr p
    · rw [if_pos bad, if_pos bad]
      exact .inr ⟨rfl, rfl⟩
    · rw [if_neg bad, if_neg bad]
      generalize fd.lseek s (wrap p.pOffset) = found at sought returned left ⊢
      generalize fd'.lseek t (wrap p.pOffset) = found' at sought returned left ⊢
      obtain ⟨ok, file⟩ := found
      obtain ⟨ok', file'⟩ := found'
      change ok' = ok at sought
      subst sought
      cases ok' with
      | false => exact .inr ⟨rfl, rfl⟩
      | true =>
        dsimp only at returned left ⊢
        rw [returned]
        split
        · exact .inl ⟨_, _, rfl, rfl, left⟩
        · exact .inr ⟨rfl, rfl⟩

theorem SameSegment.isSome (same : SameSegment fd fd' related p) (start : related s t) :
    (Exec.fileNext fd' p t).isSome = (Exec.fileNext fd p s).isSome := by
  rcases same.fileNext start with ⟨s', t', went, went', -⟩ | ⟨went, went'⟩ <;> rw [went, went'] <;> rfl

theorem SameSegment.delivered (same : SameSegment fd fd' related p) (start : related s t) :
    delivered fd' p t = delivered fd p s := by
  rw [Exec.delivered, Exec.delivered, same.sought s t start, same.data s t start]

theorem SameSegment.clear (same : SameSegment fd fd' related p) (start : related s t)
    (clear : SegmentClear fd p s) :
    SegmentClear fd' p t := by
  rw [SegmentClear, same.delivered start, same.isSome start]
  exact clear

theorem SameSegment.stops (same : SameSegment fd fd' related p) (start : related s t) :
    SegmentStops fd' p t ↔ SegmentStops fd p s := by
  rw [SegmentStops, SegmentStops, same.isSome start]

theorem SameSegment.actions (same : SameSegment fd fd' related p) (start : related s t) :
    segmentActions fd' p t = segmentActions fd p s := by
  have loads : loadActions fd' p t = loadActions fd p s := by
    have sought := same.sought s t start
    have data := same.data s t start
    unfold loadActions
    generalize fd.lseek s (wrap p.pOffset) = found at sought data ⊢
    generalize fd'.lseek t (wrap p.pOffset) = found' at sought data ⊢
    obtain ⟨ok, file⟩ := found
    obtain ⟨ok', file'⟩ := found'
    change ok' = ok at sought
    subst sought
    cases ok' with
    | false => rfl
    | true =>
      dsimp only at data ⊢
      rw [data]
  rw [segmentActions, segmentActions, loads, same.isSome start]

theorem lowestFrom_top {tab : List Phdr} {top top' : Nat}
    (below : ∀ q ∈ tab, q.pType = ptLoad → q.pOffset < top ∧ q.pOffset < top') (i : Nat)
    (found : Option Nat) : lowestFrom tab i found top' = lowestFrom tab i found top := by
  induction tab generalizing i with
  | nil => rfl
  | cons q rest ih =>
    have first := below q List.mem_cons_self
    rw [lowestFrom, lowestFrom]
    by_cases load : q.pType = ptLoad
    · rw [if_pos ⟨load, (first load).2⟩, if_pos ⟨load, (first load).1⟩]
    · rw [if_neg fun both => load both.1, if_neg fun both => load both.1]
      exact ih (fun q member => below q (List.mem_cons_of_mem _ member)) (i + 1)

theorem lowest_class {tab : List Phdr} (short : ∀ q ∈ tab, q.pType = ptLoad → q.pOffset < topOff elf32) :
    lowest elf64 tab = lowest elf32 tab := by
  apply lowestFrom_top
  intro q member load
  have low := short q member load
  refine ⟨low, low.trans ?_⟩
  decide

theorem mem_retired {tab : List Phdr} {i : Nat} {q : Phdr} (member : q ∈ retired tab i)
    (load : q.pType = ptLoad) : q ∈ tab := by
  obtain ⟨j, entry⟩ := List.mem_iff_getElem?.mp member
  rw [retired, List.getElem?_modify] at entry
  obtain ⟨r, there, result⟩ := Option.map_eq_some_iff.mp entry
  by_cases here : i = j
  · rw [if_pos here] at result
    rw [← result] at load
    exact absurd load (by decide : ptNull ≠ ptLoad)
  · rw [if_neg here] at result
    exact result ▸ List.mem_of_getElem? there

structure Alongside (fd : Fd σ) (fd' : Fd τ) (related : σ → τ → Prop) (blk blk' : Tables)
    (ld : Loading σ) (ld' : Loading τ) : Prop where
  files : related ld.file ld'.file
  table : blk'.phdrs elf64 ld'.mem = blk.phdrs elf32 ld.mem
  entry : field ld'.mem (blk'.elfhdr + elf64.eEntry) elf64.word =
    field ld.mem (blk.elfhdr + elf32.eEntry) elf32.word
  placed : blk.Placed elf32 (blk.phdrs elf32 ld.mem).length
  placed' : blk'.Placed elf64 (blk.phdrs elf32 ld.mem).length
  segments : ∀ q ∈ blk.phdrs elf32 ld.mem, q.pType = ptLoad → SameSegment fd fd' related q
  short : ∀ q ∈ blk.phdrs elf32 ld.mem, q.pType = ptLoad → q.pOffset < topOff elf32

def SameVerdict (out : Verdict σ) (out' : Verdict τ) : Prop :=
  out'.1 = out.1 ∧ out'.2.1 = out.2.1 ∧ out'.2.2.actions = out.2.2.actions

theorem entry_kept {lay : Layout} {n i : Nat} {ld ld' : Loading σ}
    (inside : lay.eEntry + lay.word ≤ lay.ehdrSize) (placed : blk.Placed lay n)
    (bound : i < n) (kept : HeapKept ld.mem ld'.mem) :
    field (ld'.retire (blk.ephdr lay i)).mem (blk.elfhdr + lay.eEntry) lay.word =
      field ld.mem (blk.elfhdr + lay.eEntry) lay.word := by
  have low := placed.headerLow
  have high := placed.headerHigh
  exact (Tables.field_retire placed bound inside).trans (field_kept kept (by omega) (by omega))

theorem Alongside.next {blk' : Tables} {ld ld₁ : Loading σ} {ld' ld₁' : Loading τ} {i : Nat}
    (along : Alongside fd fd' related blk blk' ld ld') (bound : i < (blk.phdrs elf32 ld.mem).length)
    (kept : HeapKept ld.mem ld₁.mem) (kept' : HeapKept ld'.mem ld₁'.mem)
    (files : related ld₁.file ld₁'.file) :
    Alongside fd fd' related blk blk' (ld₁.retire (blk.ephdr elf32 i))
    (ld₁'.retire (blk'.ephdr elf64 i)) := by
  have placed' : blk'.Placed elf64 (blk'.phdrs elf64 ld'.mem).length := by
    rw [along.table]
    exact along.placed'
  have bound' : i < (blk'.phdrs elf64 ld'.mem).length := by
    rw [along.table]
    exact bound
  have after := phdrs_next along.placed bound kept
  have after' := phdrs_next placed' bound' kept'
  refine ⟨files, ?_, ?_, ?_, ?_, ?_, ?_⟩
  · rw [after, after', along.table]
  · rw [entry_kept (by decide) along.placed bound kept, entry_kept (by decide) along.placed' bound kept']
    exact along.entry
  · rw [after, retired_length]
    exact along.placed
  · rw [after, retired_length]
    exact along.placed'
  · intro q member load
    rw [after] at member
    exact along.segments q (mem_retired member load) load
  · intro q member load
    rw [after] at member
    exact along.short q (mem_retired member load) load

theorem loops_stop {blk' : Tables} {w : Watched σ} {w' : Watched τ}
    (along : Alongside fd fd' related blk blk' w.ld w'.ld)
    (actions : w'.actions = w.actions) (stopped : lowest elf32 (blk.phdrs elf32 w.ld.mem) = none) (n : Nat) :
    ∃ out out', loop (fun w => some (classPass (class32 fd) blk w)) (n + 1) w = some out ∧
      loop (fun w => some (classPass (class64 fd') blk' w))
      (n + 1) w' = some out' ∧ SameVerdict out out' := by
  have stopped' : lowest elf64 (blk'.phdrs elf64 w'.ld.mem) = none := by
    rw [along.table, lowest_class along.short, stopped]
  have pass := classPass_stopped (class32_inNumbers fd) stopped
  have pass' := classPass_stopped (class64_inNumbers fd') stopped'
  refine ⟨_, _, loop_leave (Nat.succ_pos n) (congrArg some pass),
    loop_leave (Nat.succ_pos n) (congrArg some pass'), rfl, ?_, actions⟩
  exact congrArg (some ∘ UInt32.ofNat) along.entry

/-- The segments are clear of the heap, in the order they are loaded, up to one that fails or that
    the board stops at. -/
def LoadsClear (fd : Fd σ) : σ → List (Nat × Phdr) → Prop
  | _, [] => True
  | file, (_, p) :: rest =>
    if Misaligned p then p.pFilesz ≠ 0 → chkloadaddr p →
      HeapClear (wrap p.pVaddr) (delivered fd p file).length
    else SegmentClear fd p file ∧ ∀ next, fileNext fd p file = some next → LoadsClear fd next rest

theorem HeapSafe.loadsClear {file : σ} {order : List (Nat × Phdr)} (safe : HeapSafe fd file order) :
    LoadsClear fd file order := by
  induction order generalizing file with
  | nil => trivial
  | cons first rest ih =>
    obtain ⟨i, p⟩ := first
    obtain ⟨clear, later⟩ := safe
    rw [LoadsClear]
    split
    · exact fun nonempty valid => (clear nonempty valid).1
    · exact ⟨clear, fun next went => ih (later next went)⟩

theorem LoadsClear.front {file : σ} {i : Nat} {p : Phdr} {rest : List (Nat × Phdr)}
    (clear : LoadsClear fd file ((i, p) :: rest)) :
    p.pFilesz ≠ 0 → chkloadaddr p → HeapClear (wrap p.pVaddr) (delivered fd p file).length := by
  rw [LoadsClear] at clear
  split at clear
  · exact clear
  · exact fun nonempty valid => (clear.1 nonempty valid).1

theorem misaligned_nonempty {p : Phdr} (odd : Misaligned p) : p.pFilesz ≠ 0 := by
  intro empty
  have some := odd.2.1
  rw [empty] at some
  exact absurd some (by decide)

theorem misaligned_last {p : Phdr} {file next : σ} (odd : Misaligned p)
    (went : fileNext fd p file = some next) : SegmentStops fd p file := by
  have nonempty := misaligned_nonempty odd
  refine ⟨nonempty, ?_, by rw [went]; rfl, odd⟩
  by_contra bad
  rw [fileNext, if_neg nonempty, if_pos bad] at went
  cases went

theorem loops_agree {blk' : Tables} {n : Nat} {w : Watched σ} {w' : Watched τ}
    (along : Alongside fd fd' related blk blk' w.ld w'.ld)
    (actions : w'.actions = w.actions) (enough : findables elf32 (blk.phdrs elf32 w.ld.mem) ≤ n)
    (safe : LoadsClear fd w.ld.file (loadOrder elf32 n (blk.phdrs elf32 w.ld.mem))) :
    ∃ out out', loop (fun w => some (classPass (class32 fd) blk w)) (n + 1) w = some out ∧
      loop (fun w => some (classPass (class64 fd') blk' w))
      (n + 1) w' = some out' ∧ SameVerdict out out' := by
  induction n generalizing w w' with
  | zero =>
    rcases lowest_cases elf32 (blk.phdrs elf32 w.ld.mem) with ⟨stopped, _⟩ | ⟨i, p, _, entry, findable, _⟩
    · exact loops_stop along actions stopped 0
    · have fewer := findables_retired entry findable
      omega
  | succ n ih =>
    rcases lowest_cases elf32 (blk.phdrs elf32 w.ld.mem) with ⟨stopped, _⟩ | ⟨i, p, next, entry, findable, _⟩
    · exact loops_stop along actions stopped (n + 1)
    · have fewer := findables_retired entry findable
      have bound : i < (blk.phdrs elf32 w.ld.mem).length := (List.getElem?_eq_some_iff.mp entry).1
      have segment := along.segments p (List.mem_of_getElem? entry) findable.1
      rw [loadOrder_some next entry] at safe
      have front := safe.front
      have front' : p.pFilesz ≠ 0 → chkloadaddr p →
          HeapClear (wrap p.pVaddr) (delivered fd' p w'.ld.file).length := by
        rw [segment.delivered along.files]
        exact front
      have entry' : (blk'.phdrs elf64 w'.ld.mem)[i]? = some p := by rw [along.table, entry]
      have next' : lowest elf64 (blk'.phdrs elf64 w'.ld.mem) = some i := by
        rw [along.table, lowest_class along.short, next]
      have placed' : blk'.Placed elf64 (blk'.phdrs elf64 w'.ld.mem).length := by
        rw [along.table]
        exact along.placed'
      have pass := classPass_segment (class32_inNumbers fd) next entry along.placed front
      have pass' := classPass_segment (class64_inNumbers fd') next' entry' placed' front'
      rw [segment.actions along.files, actions] at pass'
      by_cases stops : SegmentStops fd p w.ld.file
      · -- the board stops in both
        rw [if_pos stops] at pass
        rw [if_pos ((segment.stops along.files).mpr stops)] at pass'
        exact ⟨_, _, loop_leave (Nat.succ_pos _) (congrArg some pass),
          loop_leave (Nat.succ_pos _) (congrArg some pass'), rfl, rfl, rfl⟩
      rw [if_neg stops] at pass
      rw [if_neg fun stops' => stops ((segment.stops along.files).mp stops')] at pass'
      rcases segment.fileNext along.files with ⟨file, file', gone, gone', files⟩ | ⟨gone, gone'⟩
      · -- both have loaded the segment
        have even : ¬ Misaligned p := fun odd => stops (misaligned_last odd gone)
        rw [LoadsClear, if_neg even] at safe
        obtain ⟨clear, later⟩ := safe
        have kept := @loadSeg_kept σ fd p { w.ld with order := w.ld.order ++ [i] } clear
        have kept' := @loadSeg_kept τ fd' p { w'.ld with order := w'.ld.order ++ [i] }
          (segment.clear along.files clear)
        obtain ⟨ld, loaded, rfl⟩ := @loadSeg_loads σ fd p { w.ld with order := w.ld.order ++ [i] } _ gone
        obtain ⟨ld', loaded', rfl⟩ := @loadSeg_loads τ fd' p { w'.ld with
          order := w'.ld.order ++ [i] } _ gone'
        rw [loaded] at pass kept
        rw [loaded'] at pass' kept'
        have table := phdrs_next along.placed bound kept
        obtain ⟨out, out', left, left', same⟩ :=
          @ih ⟨ld.retire (blk.ephdr elf32 i), w.actions ++ segmentActions fd p w.ld.file⟩
            ⟨ld'.retire (blk'.ephdr elf64 i), w.actions ++ segmentActions fd p w.ld.file⟩
            (along.next bound kept kept' files) rfl
            (by dsimp only; rw [table]; omega) (by dsimp only; rw [table]; exact later _ gone)
        exact ⟨out, out', (loop_again (congrArg some pass)).trans left,
          (loop_again (congrArg some pass')).trans left', same⟩
      · obtain ⟨ld, failed⟩ := @loadSeg_fails σ fd p { w.ld with order := w.ld.order ++ [i] } gone
        obtain ⟨ld', failed'⟩ := @loadSeg_fails τ fd' p { w'.ld with order := w'.ld.order ++ [i] } gone'
        rw [failed] at pass
        rw [failed'] at pass'
        exact ⟨_, _, loop_leave (Nat.succ_pos _) (congrArg some pass),
          loop_leave (Nat.succ_pos _) (congrArg some pass'), rfl, rfl, rfl⟩

/-- The two loaders return the same, with the same entry point, and do the same on the way, for
    program headers of the same values whose segments are clear of the heap; and they do return, or
    the board stops in both at a checksum. -/
theorem elf_loaders_agree {blk' : Tables} {elfhdr ephdrtab elfhdr' ephdrtab' : Option Nat}
    {mem mem' : Memory} {file : σ} {file' : τ} {ld : Loading σ} {ld' : Loading τ} {fuel : Nat}
    (opened : openElf elf32 fd elfhdr ephdrtab mem file = .ok (blk, ld))
    (opened' : openElf elf64 fd' elfhdr' ephdrtab' mem' file' = .ok (blk', ld'))
    (along : Alongside fd fd' related blk blk' ld ld')
    (clear : LoadsClear fd ld.file (loadOrder elf32 (blk.phdrs elf32 ld.mem).length (blk.phdrs elf32 ld.mem)))
    (enough : (blk.phdrs elf32 ld.mem).length < fuel) :
    ∃ out out', elf32LoaderWatched fd elfhdr ephdrtab fuel mem file = some out ∧
      elf64LoaderWatched fd' elfhdr' ephdrtab' fuel mem' file' = some out' ∧ SameVerdict out out' := by
  obtain ⟨out, out', left, left', same⟩ := @loops_agree σ τ fd fd' blk related blk' _ ⟨ld, []⟩
    ⟨ld', []⟩ along rfl List.countP_le_length clear
  refine ⟨out, out', ?_, ?_, same⟩
  · have first : openElf (class32 fd).lay fd elfhdr ephdrtab mem file = .ok (blk, ld) := opened
    rw [elf32LoaderWatched, classLoader, first]
    exact loop_mono left enough fun _ _ passed => passed
  · have first : openElf (class64 fd').lay fd' elfhdr' ephdrtab' mem' file' = .ok (blk', ld') := opened'
    rw [elf64LoaderWatched, classLoader, first]
    exact loop_mono left' enough fun _ _ passed => passed

theorem plain_sameSegment {content content' : List UInt8}
    (bytes : (content'.drop (wrap p.pOffset)).take (wrap p.pFilesz) =
      (content.drop (wrap p.pOffset)).take (wrap p.pFilesz)) :
    SameSegment (plainFile content) (plainFile content') (fun _ _ => True) p where
  sought _ _ _ := rfl
  data _ _ _ := bytes
  returned _ _ _ := congrArg List.length bytes
  left _ _ _ := True.intro

def word8 (x : Nat) : List UInt8 := word4 x ++ word4 (x / 2^32)

def elf64File (segs : List Phdr) (rest : List UInt8) : List UInt8 :=
  [0x7f, 0x45, 0x4c, 0x46, 2, 1, 1, 0, 0, 0, 0, 0, 0, 0, 0, 0] ++ half etExec ++ half emMips ++ word4 1 ++
    word8 0x80200000 ++ word8 64 ++ word8 0 ++ word4 0 ++ half 64 ++ half 56 ++ half segs.length ++
    half 0 ++ half 0 ++ half 0 ++
    segs.flatMap (fun p => word4 p.pType ++ word4 7 ++ word8 p.pOffset ++ word8 p.pVaddr ++ word8 p.pVaddr ++
      word8 p.pFilesz ++ word8 p.pMemsz ++ word8 4) ++ rest

def Twins (content content' : List UInt8) (blk blk' : Tables) (mem mem' : Memory) : Prop :=
  blk'.phdrs elf64 mem' = blk.phdrs elf32 mem ∧
    field mem' (blk'.elfhdr + elf64.eEntry) elf64.word = field mem (blk.elfhdr + elf32.eEntry) elf32.word ∧
    blk.Placed elf32 (blk.phdrs elf32 mem).length ∧ blk'.Placed elf64 (blk.phdrs elf32 mem).length ∧
    (∀ q ∈ blk.phdrs elf32 mem, q.pType = ptLoad →
      (content'.drop (wrap q.pOffset)).take (wrap q.pFilesz) =
        (content.drop (wrap q.pOffset)).take (wrap q.pFilesz)) ∧
    ∀ q ∈ blk.phdrs elf32 mem, q.pType = ptLoad → q.pOffset < topOff elf32

instance (content content' : List UInt8) (blk blk' : Tables) (mem mem' : Memory) :
    Decidable (Twins content content' blk blk' mem mem') :=
  inferInstanceAs (Decidable (_ ∧ _ ∧ _ ∧ _ ∧ _ ∧ _))

theorem Twins.along {content content' : List UInt8} {blk' : Tables} {ld ld' : Loading Nat}
    (twins : Twins content content' blk blk' ld.mem ld'.mem) :
    Alongside (plainFile content) (plainFile content') (fun _ _ => True) blk blk' ld ld' := by
  obtain ⟨table, entry, placed, placed', bytes, short⟩ := twins
  exact ⟨True.intro, table, entry, placed, placed', fun q member load =>
    plain_sameSegment (bytes q member load), short⟩

def smallSegs : List Phdr := [⟨1, 176, 0x80200000, 2, 4⟩, ⟨1, 178, 0x80300000, 1, 1⟩]

def small32 : List UInt8 := elf32File smallSegs (List.replicate 60 0 ++ [0x11, 0x22, 0x33])

def small64 : List UInt8 := elf64File smallSegs [0x11, 0x22, 0x33]

theorem small_kernels_agree :
    ∃ out out', elf32LoaderWatched (plainFile small32) (some heapBase)
    (some (heapBase + 64)) 3 (fun _ => 1) 0 = some out ∧
      elf64LoaderWatched (plainFile small64) (some heapBase)
      (some (heapBase + 64)) 3 (fun _ => 1) 0 = some out' ∧ SameVerdict out out' := by
  have checked : (match openElf elf32 (plainFile small32) (some heapBase) (some (heapBase + 64))
    (fun _ => 1) 0,
      openElf elf64 (plainFile small64) (some heapBase) (some (heapBase + 64)) (fun _ => 1) 0 with
    | .ok (blk, ld), .ok (blk', ld') =>
      decide (Twins small32 small64 blk blk' ld.mem ld'.mem ∧ (blk.phdrs elf32 ld.mem).length < 3 ∧
        HeapSafe (plainFile small32) ld.file (loadOrder elf32 (blk.phdrs elf32 ld.mem).length
          (blk.phdrs elf32 ld.mem)))
    | _, _ => false) = true := by decide +kernel
  rcases opened : openElf elf32 (plainFile small32) (some heapBase) (some (heapBase + 64))
    (fun _ => 1) 0 with ld | ⟨blk, ld⟩
  · rw [opened] at checked
    cases checked
  rcases opened' : openElf elf64 (plainFile small64) (some heapBase) (some (heapBase + 64))
    (fun _ => 1) 0 with ld' | ⟨blk', ld'⟩
  · rw [opened, opened'] at checked
    cases checked
  rw [opened, opened'] at checked
  obtain ⟨twins, enough, clear⟩ := of_decide_eq_true checked
  exact elf_loaders_agree opened opened' twins.along clear.loadsClear enough

/-- The first segment runs from below the heap through the header of a 32-bit executable, up to
    before `e_phnum` of the other class. -/
def longSegs : List Phdr := [⟨1, 176, 0x8f3ffffe, 56, 0⟩, ⟨1, 232, 0x80200000, 2, 2⟩]

def long32 : List UInt8 := elf32File longSegs (List.replicate 116 0 ++ [0x11, 0x22])

def long64 : List UInt8 := elf64File longSegs (List.replicate 56 0 ++ [0x11, 0x22])

/-- The 32-bit loader finds no second program header any more. -/
theorem long_kernels_differ :
    ∃ blk ld blk' ld' out out', openElf elf32 (plainFile long32) (some heapBase)
    (some (heapBase + 64)) (fun _ => 1) 0 = .ok (blk, ld) ∧
      openElf elf64 (plainFile long64) (some heapBase) (some (heapBase + 64))
      (fun _ => 1) 0 = .ok (blk', ld') ∧
      Alongside (plainFile long32) (plainFile long64) (fun _ _ => True) blk blk' ld ld' ∧
      elf32LoaderWatched (plainFile long32) (some heapBase)
      (some (heapBase + 64)) 3 (fun _ => 1) 0 = some out ∧
      elf64LoaderWatched (plainFile long64) (some heapBase)
      (some (heapBase + 64)) 3 (fun _ => 1) 0 = some out' ∧ ¬ SameVerdict out out' := by
  have checked : (match openElf elf32 (plainFile long32) (some heapBase) (some (heapBase + 64))
    (fun _ => 1) 0,
      openElf elf64 (plainFile long64) (some heapBase) (some (heapBase + 64)) (fun _ => 1) 0 with
    | .ok (blk, ld), .ok (blk', ld') => decide (Twins long32 long64 blk blk' ld.mem ld'.mem)
    | _, _ => false) = true := by decide +kernel
  have count : (elf32LoaderWatched (plainFile long32) (some heapBase) (some (heapBase + 64)) 3
    (fun _ => 1) 0).map
      (fun out => out.2.2.actions.length) = some 2 := by decide +kernel
  have count' : (elf64LoaderWatched (plainFile long64) (some heapBase) (some (heapBase + 64)) 3
    (fun _ => 1) 0).map
      (fun out => out.2.2.actions.length) = some 4 := by decide +kernel
  rcases opened : openElf elf32 (plainFile long32) (some heapBase) (some (heapBase + 64))
    (fun _ => 1) 0 with ld | ⟨blk, ld⟩
  · rw [opened] at checked
    cases checked
  rcases opened' : openElf elf64 (plainFile long64) (some heapBase) (some (heapBase + 64))
    (fun _ => 1) 0 with ld' | ⟨blk', ld'⟩
  · rw [opened, opened'] at checked
    cases checked
  rw [opened, opened'] at checked
  obtain ⟨out, left, two⟩ := Option.map_eq_some_iff.mp count
  obtain ⟨out', left', four⟩ := Option.map_eq_some_iff.mp count'
  refine ⟨blk, ld, blk', ld', out, out', rfl, rfl, (of_decide_eq_true checked).along, left, left', ?_⟩
  intro same
  have equal := congrArg List.length same.2.2
  rw [two, four] at equal
  cases equal

end Embryo.Exec
