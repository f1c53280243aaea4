import Embryo.Uipc.Clusters

namespace Embryo.Uipc

open Embryo.Machine
open Embryo.Kmem (Arena kmemMalloc)

def segments : Chain → Nat → Nat
  | [], _ => 0
  | m :: rest, len =>
    if len = 0 then 0 else segments rest (if len = mCopyall then len else len - min m.len len) + 1

def Grants (A : Arena) : Nat → Kmem.State → Prop
  | 0, _ => True
  | n + 1, k => (kmemMalloc A k msize).1 ≠ 0 ∧ Grants A n (kmemMalloc A k msize).2

/-- What is left to copy never equals `M_COPYALL` by accident, or when it does then the chain
    ends just there. -/
def Runs : Chain → Nat → Prop
  | [], _ => True
  | m :: rest, len =>
    len = 0 ∨ (len - min m.len len = mCopyall ∧ total rest = mCopyall) ∨
      (len - min m.len len ≠ mCopyall ∧ Runs rest (len - min m.len len))

def front (data : List UInt8) (len : Nat) : List UInt8 := if len = mCopyall then data else data.take len

def Exact (chain : Chain) (len : Nat) : Prop :=
  len = mCopyall ∨ (len ≤ total chain ∧ Runs chain len)

variable {A : Arena} {P : Pool} {live : List Mbuf}

theorem Mbuf.Fit.len_lt {m : Mbuf} (fit : m.Fit) : m.len < mCopyall := by
  have size : m.room.size ≤ mclBytes := by
    simp only [Mbuf.room]
    split
    · exact Nat.le_refl _
    · split <;> simp only [mhlen, mlen, msize, sizeofMHdr, sizeofPkthdr, mclBytes, mclShift] <;> omega
  obtain ⟨low, high⟩ := fit
  simp only [Region.stop, mclBytes, mclShift, mCopyall] at *
  omega

theorem front_cons {mem : Memory} {m : Mbuf} {rest : Chain} {len : Nat} (small : m.len < mCopyall)
    (exact : Exact (m :: rest) len) :
    front (flatten mem (m :: rest)) len = bytes mem m.data (min m.len len) ++
      front (flatten mem rest) (if len = mCopyall then len else len - min m.len len) ∧
    Exact rest (if len = mCopyall then len else len - min m.len len) := by
  rw [flatten_cons]
  by_cases all : len = mCopyall
  · simp only [front, all, if_true]
    rw [Nat.min_eq_left (Nat.le_of_lt small)]
    exact ⟨rfl, .inl rfl⟩
  · obtain ⟨bound, runs⟩ : len ≤ total (m :: rest) ∧ Runs (m :: rest) len := exact.resolve_left all
    rw [total_cons] at bound
    simp only [front, all, if_false]
    have cut : (bytes mem m.data m.len ++ flatten mem rest).take len =
        bytes mem m.data (min m.len len) ++ (flatten mem rest).take (len - min m.len len) := by
      rw [List.take_append, bytes_length]
      by_cases short : len ≤ m.len
      · rw [Nat.min_eq_right short, bytes_take mem short, Nat.sub_self, Nat.sub_eq_zero_of_le short]
      · rw [Nat.min_eq_left (by omega), List.take_of_length_le (by rw [bytes_length]; omega)]
    rw [cut]
    rcases runs with zero | ⟨hits, ends⟩ | ⟨misses, runs⟩
    · subst zero
      have none : ¬ 0 - min m.len 0 = mCopyall := by simp [mCopyall]
      simp only [none, if_false, true_and]
      refine .inr ⟨by simp, ?_⟩
      cases rest with
      | nil => trivial
      | cons n rest => left; simp
    · refine ⟨?_, .inl hits⟩
      rw [if_pos hits, List.take_of_length_le]
      rw [flatten_length]
      omega
    · refine ⟨by rw [if_neg misses], .inr ⟨by omega, runs⟩⟩

theorem front_length {mem : Memory} {chain : Chain} {len : Nat} (exact : Exact chain len) :
    (front (flatten mem chain) len).length = if len = mCopyall then total chain else len := by
  unfold front
  by_cases all : len = mCopyall
  · rw [if_pos all, if_pos all, flatten_length]
  · rw [if_neg all, if_neg all, List.length_take, flatten_length]
    have := (exact.resolve_left all).1
    omega

theorem Wf.copy_rest {chain top : Chain} {len : Nat} (wf : Wf A P (top ++ live))
    (members : ∀ m ∈ chain, m ∈ live) (fit : ∀ m ∈ chain, m.Fit)
    (granted : Grants A (segments chain len) P.kmem) (exact : Exact chain len) :
    ∃ added P', copyLoop A chain 0 len false top P = some (top ++ added, P') ∧
      Wf A P' (top ++ added ++ live) ∧ Calm P P' (top ++ live) ∧
      (∀ n ∈ added, n.Fit ∧ n.flags.pkthdr = false) ∧
      flatten P'.mem added = front (flatten P.mem chain) len := by
  induction chain generalizing P top len with
  | nil =>
    refine ⟨[], P, ?_, by simpa using wf, Calm.refl P _, nofun, ?_⟩
    · have ends : len = 0 ∨ len = mCopyall := by
        rcases exact with all | ⟨bound, _⟩
        · exact .inr all
        · exact .inl (by simpa [total] using bound)
      rw [copyLoop, if_pos ends, List.append_nil]
    · simp [flatten, front]
  | cons m rest ih =>
    have member : m ∈ live := members m List.mem_cons_self
    have fitM := fit m List.mem_cons_self
    by_cases none : len = 0
    · refine ⟨[], P, ?_, by simpa using wf, Calm.refl P _, nofun, ?_⟩
      · rw [copyLoop, if_pos none, List.append_nil]
      · simp [flatten, front, none, mCopyall]
    · simp only [segments, none, if_false, Grants] at granted
      obtain ⟨n', P₂, step, wf₂, calm₂, kmem₂, copied⟩ := wf.copy_step rest member fitM 0 false
        (Nat.zero_le _) (by simp) none granted.1
      have small := fitM.len_lt
      obtain ⟨cut, left⟩ := @front_cons P.mem m rest len small exact
      rw [copied.extent] at step
      obtain ⟨added, P', looped, wf', calm', fresh, data⟩ := @ih P₂ (top ++ [n']) _ wf₂
        (fun e h => members e (List.mem_cons_of_mem _ h)) (fun e h => fit e (List.mem_cons_of_mem _ h))
        (by rw [kmem₂]; exact granted.2) left
      have fitN : n'.Fit := copied.fit (by rw [copied.extent]; omega)
      refine ⟨n' :: added, P', ?_, ?_, ?_, ?_, ?_⟩
      · rw [step, looped, List.append_assoc]
        rfl
      · rw [List.append_cons]
        exact wf'
      · apply calm₂.trans (Calm.mono calm' _) (fun e h => h)
        intro e member
        rcases List.mem_append.mp member with inTop | inLive
        · exact List.mem_append_left _ (List.mem_append_left _ inTop)
        · exact List.mem_append_right _ inLive
      · intro n inNew
        rcases List.mem_cons.mp inNew with rfl | inNew
        · exact ⟨fitN, copied.pkthdr⟩
        · exact fresh n inNew
      · have first : flatten P'.mem [n'] = flatten P₂.mem [n'] := calm'.flatten_eq
          (by simp) (by simpa using fitN)
        have source : flatten P₂.mem rest = flatten P.mem rest := calm₂.flatten_eq
          (fun e h => List.mem_append_right _ (members e (List.mem_cons_of_mem _ h)))
          (fun e h => fit e (List.mem_cons_of_mem _ h))
        have whole : flatten P'.mem (n' :: added) = flatten P'.mem [n'] ++ flatten P'.mem added :=
          flatten_append P'.mem [n'] added
        have moved : flatten P₂.mem [n'] = bytes P.mem m.data (min m.len len) := by
          rw [← copied.extent]
          exact (List.flatMap_singleton _ n').trans copied.data
        rw [whole, first, moved, data, source, cut]

theorem skip_flatten (mem : Memory) {chain : Chain} {off0 : Nat} (inside : off0 ≤ total chain) :
    ∃ chain' off, skip chain off0 = some (chain', off) ∧
      (flatten mem chain).drop off0 = (flatten mem chain').drop off ∧ off ≤ total chain' ∧
      total chain - off0 = total chain' - off := by
  induction chain generalizing off0 with
  | nil =>
    have zero : off0 = 0 := by simpa [total] using inside
    subst zero
    exact ⟨[], 0, rfl, rfl, Nat.le_refl _, rfl⟩
  | cons m rest ih =>
    rw [total_cons] at inside
    by_cases zero : off0 = 0
    · subst zero
      exact ⟨m :: rest, 0, rfl, rfl, Nat.zero_le _, rfl⟩
    · by_cases less : off0 < m.len
      · refine ⟨m :: rest, off0, by rw [skip, if_neg zero, if_pos less], rfl, ?_, rfl⟩
        rw [total_cons]
        omega
      · obtain ⟨chain', off, skipped, data, bound, left⟩ := @ih (off0 - m.len) (by omega)
        refine ⟨chain', off, by rw [skip, if_neg zero, if_neg less, skipped], ?_, bound, ?_⟩
        · rw [← data, flatten_cons, List.drop_append, bytes_length, List.drop_eq_nil_of_le, List.nil_append]
          rw [bytes_length]
          omega
        · rw [total_cons]
          omega

/-- The offset ends on a segment boundary, or the copy ends inside the segment it starts in;
    and the length left is never `M_COPYALL` by accident. -/
def Fair (chain : Chain) (off0 len : Nat) : Prop :=
  match skip chain off0 with
  | some (m :: rest, off) =>
    (off = 0 ∨ (len ≠ mCopyall ∧ off + len ≤ m.len)) ∧ (len = mCopyall ∨ Runs (m :: rest) len)
  | _ => True

def Sliced (A : Arena) (P : Pool) (chain : Chain) (off0 len : Nat) : Prop :=
  ∃ new P', mbufCopy A P chain off0 len = some (new, P') ∧
    flatten P'.mem new = front ((flatten P.mem chain).drop off0) len ∧
    flatten P'.mem chain = flatten P.mem chain ∧
    ∀ n ∈ new.head?, n.flags.pkthdr = true → n.pkthdr.mpLen = total new

theorem front_drop {mem : Memory} {m : Mbuf} {rest : Chain} {off len : Nat} (small : m.len < mCopyall)
    (start : off = 0 ∨ (len ≠ mCopyall ∧ off + len ≤ m.len)) (exact : off = 0 → Exact (m :: rest) len) :
    front ((flatten mem (m :: rest)).drop off) len = bytes mem (m.data + off) (min m.len len) ++
      front (flatten mem rest) (if len = mCopyall then len else len - min m.len len) ∧
    Exact rest (if len = mCopyall then len else len - min m.len len) ∧ off + min m.len len ≤ m.len := by
  by_cases zero : off = 0
  · subst zero
    obtain ⟨cut, left⟩ := @front_cons mem m rest len small (exact rfl)
    exact ⟨cut, left, by omega⟩
  · obtain ⟨all, inside⟩ := start.resolve_left zero
    have whole : min m.len len = len := by omega
    have none : ¬ 0 = mCopyall := by decide
    simp only [front, all, if_false, whole, Nat.sub_self, none, List.take_zero, List.append_nil]
    refine ⟨?_, .inr ⟨Nat.zero_le _, ?_⟩, inside⟩
    · rw [flatten_cons, List.drop_append_of_le_length (by rw [bytes_length]; omega),
        bytes_drop mem (by omega), List.take_append_of_le_length (by rw [bytes_length]; omega),
        bytes_take mem (by omega)]
    · cases rest with
      | nil => trivial
      | cons n rest => exact .inl rfl

theorem copy_sliced {first : Mbuf} {rest : Chain} {off0 len : Nat} (wf : Wf A P live)
    (members : ∀ m ∈ first :: rest, m ∈ live) (fit : ∀ m ∈ first :: rest, m.Fit)
    (header : first.flags.pkthdr = true → first.pkthdr.mpLen = total (first :: rest))
    (inside : off0 ≤ total (first :: rest))
    (range : len = mCopyall ∨ len ≤ total (first :: rest) - off0)
    (granted : ∀ chain off, skip (first :: rest) off0 = some (chain, off) →
      Grants A (segments chain len) P.kmem)
    (fair : Fair (first :: rest) off0 len) : Sliced A P (first :: rest) off0 len := by
  obtain ⟨chain, off, skipped, data, reach, left⟩ := skip_flatten P.mem inside
  obtain ⟨subset, bound, start⟩ := skip_spec skipped
  have granted := granted chain off skipped
  simp only [Sliced, mbufCopy, skipped, data]
  rw [left] at range
  cases chain with
  | nil =>
    have ends : len = 0 ∨ len = mCopyall := by
      rcases range with all | range
      · exact .inr all
      · exact .inl (by simpa [total] using range)
    refine ⟨[], P, by
      rw [copyLoop, if_pos ends], ?_, rfl, fun _ absent => absurd absent (Option.not_mem_none _)⟩
    simp [flatten, front]
  | cons m tail =>
    by_cases none : len = 0
    · refine ⟨[], P, by
        rw [copyLoop, if_pos none], ?_, rfl, fun _ absent => absurd absent (Option.not_mem_none _)⟩
      simp [flatten, front, none, mCopyall]
    · have inChain := subset m List.mem_cons_self
      have fitM := fit m inChain
      simp only [Fair, skipped] at fair
      obtain ⟨place, runs⟩ := fair
      have exact : off = 0 → Exact (m :: tail) len := by
        rintro rfl
        rcases range with all | range
        · exact .inl all
        · rcases runs with all | runs
          · exact .inl all
          · exact .inr ⟨by omega, runs⟩
      obtain ⟨cut, rests, within⟩ := @front_drop P.mem m tail off len fitM.len_lt place exact
      simp only [segments, none, if_false, Grants] at granted
      have headed : decide (off0 = 0 ∧ first.flags.pkthdr = true) = true →
          m.flags.pkthdr = true ∧ m.pkthdr.mpLen = total (m :: tail) ∧ off = 0 := by
        intro hdr
        obtain ⟨zero, flagged⟩ := of_decide_eq_true hdr
        obtain ⟨same, here⟩ := start zero
        simp only [List.cons.injEq] at same
        obtain ⟨rfl, rfl⟩ := same
        exact ⟨flagged, header flagged, here⟩
      generalize decide (off0 = 0 ∧ first.flags.pkthdr = true) = hdr at *
      obtain ⟨n', P₂, step, wf₂, calm₂, kmem₂, copied⟩ := @Wf.copy_step A P live [] wf m tail
        (members m inChain) fitM off len hdr (bound m rfl) (fun h => (headed h).1) none granted.1
      rw [copied.extent] at step
      obtain ⟨added, P', looped, wf', calm', fresh, moved⟩ := @Wf.copy_rest A P₂ live tail [n'] _ wf₂
        (fun e h => members e (subset e (List.mem_cons_of_mem _ h)))
        (fun e h => fit e (subset e (List.mem_cons_of_mem _ h))) (by rw [kmem₂]; exact granted.2) rests
      have fitN : n'.Fit := copied.fit (by rw [copied.extent]; exact within)
      have source : ∀ c, (∀ e ∈ c, e ∈ first :: rest) → flatten P₂.mem c = flatten P.mem c :=
        fun c h => calm₂.flatten_eq (fun e m => members e (h e m)) (fun e m => fit e (h e m))
      have kept : flatten P'.mem (first :: rest) = flatten P₂.mem (first :: rest) :=
        calm'.flatten_eq (fun e h => List.mem_append_right _ (members e h)) fit
      have total₁ : flatten P'.mem (n' :: added) = front ((flatten P.mem (m :: tail)).drop off) len := by
        have whole : flatten P'.mem (n' :: added) = flatten P'.mem [n'] ++ flatten P'.mem added :=
          flatten_append P'.mem [n'] added
        have held : flatten P'.mem [n'] = flatten P₂.mem [n'] := calm'.flatten_eq
          (by simp) (by simpa using fitN)
        have here : flatten P₂.mem [n'] = bytes P.mem (m.data + off) (min m.len len) := by
          rw [← copied.extent]
          exact (List.flatMap_singleton _ n').trans copied.data
        rw [whole, held, here, moved, source tail (fun e h => subset e (List.mem_cons_of_mem _ h)), cut]
      refine ⟨n' :: added, P', step.trans looped, total₁, ?_, ?_⟩
      · rw [kept, source _ (fun e h => h)]
      · intro n isHead flagged
        simp only [List.head?_cons, Option.mem_def, Option.some.injEq] at isHead
        subst isHead
        rw [copied.pkthdr] at flagged
        obtain ⟨_, consistent, zero⟩ := headed flagged
        have count := congrArg List.length total₁
        rw [flatten_length, zero, List.drop_zero, front_length (exact zero)] at count
        rw [count, copied.mpLen flagged, consistent]

theorem copyall_overshoots {first : Mbuf} {rest : Chain} {off0 : Nat} (wf : Wf A P live)
    (members : ∀ m ∈ first :: rest, m ∈ live) (fit : ∀ m ∈ first :: rest, m.Fit)
    (inside : off0 ≤ total (first :: rest))
    (granted : ∀ chain off, skip (first :: rest) off0 = some (chain, off) →
      Grants A (segments chain mCopyall) P.kmem)
    (sliced : Sliced A P (first :: rest) off0 mCopyall) : Fair (first :: rest) off0 mCopyall := by
  obtain ⟨chain, off, skipped, data, reach, left⟩ := skip_flatten P.mem inside
  obtain ⟨subset, bound, start⟩ := skip_spec skipped
  have granted := granted chain off skipped
  simp only [Fair, skipped]
  cases chain with
  | nil => trivial
  | cons m tail =>
    refine ⟨.inl ?_, .inl trivial⟩
    have nonzero : mCopyall ≠ 0 := by decide
    have inChain := subset m List.mem_cons_self
    have fitM := fit m inChain
    simp only [segments, nonzero, if_false, if_true, Grants] at granted
    have headed : decide (off0 = 0 ∧ first.flags.pkthdr = true) = true → m.flags.pkthdr = true := by
      intro hdr
      obtain ⟨zero, flagged⟩ := of_decide_eq_true hdr
      obtain ⟨same, _⟩ := start zero
      simp only [List.cons.injEq] at same
      rw [same.1]
      exact flagged
    obtain ⟨new, P', call, moved, _⟩ := sliced
    simp only [mbufCopy, skipped] at call
    generalize decide (off0 = 0 ∧ first.flags.pkthdr = true) = hdr at *
    obtain ⟨n', P₂, step, wf₂, calm₂, kmem₂, copied⟩ := @Wf.copy_step A P live [] wf m tail
      (members m inChain) fitM off mCopyall hdr (bound m rfl) headed nonzero granted.1
    rw [if_pos rfl] at step
    obtain ⟨added, P'', looped, _, _, _, copiedRest⟩ := @Wf.copy_rest A P₂ live tail [n'] _ wf₂
      (fun e h => members e (subset e (List.mem_cons_of_mem _ h)))
      (fun e h => fit e (subset e (List.mem_cons_of_mem _ h))) (by rw [kmem₂]; exact granted.2) (.inl rfl)
    rw [step, List.nil_append, looped] at call
    simp only [Option.some.injEq, Prod.mk.injEq] at call
    obtain ⟨rfl, rfl⟩ := call
    have here := copied.extent
    have small := fitM.len_lt
    have tailLength := congrArg List.length copiedRest
    have wholeLength := congrArg List.length moved
    rw [data] at wholeLength
    simp only [front, if_true, flatten_length, List.length_drop, List.singleton_append, total_cons]
      at tailLength wholeLength
    rw [total_cons] at reach
    omega

/-- `mbuf_copy` is a slice when the residual offset plays no part; with `M_COPYALL` only then. -/
theorem copy_is_slice {first : Mbuf} {rest : Chain} {off0 len : Nat} (wf : Wf A P live)
    (members : ∀ m ∈ first :: rest, m ∈ live) (fit : ∀ m ∈ first :: rest, m.Fit)
    (header : first.flags.pkthdr = true → first.pkthdr.mpLen = total (first :: rest))
    (inside : off0 ≤ total (first :: rest))
    (range : len = mCopyall ∨ len ≤ total (first :: rest) - off0)
    (granted : ∀ chain off, skip (first :: rest) off0 = some (chain, off) →
      Grants A (segments chain len) P.kmem) :
    (Fair (first :: rest) off0 len → Sliced A P (first :: rest) off0 len) ∧
    (len = mCopyall → Sliced A P (first :: rest) off0 len → Fair (first :: rest) off0 len) := by
  refine ⟨copy_sliced wf members fit header inside range granted, ?_⟩
  rintro rfl sliced
  exact copyall_overshoots wf members fit inside granted sliced

abbrev four : Mbuf := { mbufOf firstGet with len := 4 }

theorem four_wf : Wf Kmem.board firstGet.2 [four] :=
  (@Reachable.edit_head _ _ _ _ _ four firstGet_reachable rfl rfl rfl rfl).wf

theorem four_answers :
    (four.room.addr ≤ four.data ∧ four.data + 4 ≤ four.room.stop) ∧
      (kmemMalloc Kmem.board firstGet.2.kmem msize).1 ≠ 0 := by
  decide +kernel

theorem four_fit : four.Fit := four_answers.1

theorem four_granted (off0 : Nat) (bound : off0 < 4) : ∀ chain off, skip [four] off0 = some (chain, off) →
    Grants Kmem.board (segments chain mCopyall) firstGet.2.kmem := by
  intro chain off skipped
  have here : skip [four] off0 = some ([four], off0) := by
    by_cases zero : off0 = 0
    · rw [zero]
      rfl
    · rw [skip, if_neg zero, if_pos bound]
  rw [here] at skipped
  simp only [Option.some.injEq, Prod.mk.injEq] at skipped
  obtain ⟨rfl, rfl⟩ := skipped
  exact ⟨four_answers.2, trivial⟩

theorem copy_is_slice_four : Sliced Kmem.board firstGet.2 [four] 0 mCopyall := by
  apply (copy_is_slice four_wf (by simp) (by simpa using four_fit)
    (fun flagged => absurd flagged (by decide)) (by decide) (.inl rfl)
    (four_granted 0 (by decide))).1
  exact ⟨.inl rfl, .inl rfl⟩

/-- The copy from offset 1 has a byte too many. -/
theorem copy_overshoots_four : ¬ Sliced Kmem.board firstGet.2 [four] 1 mCopyall := by
  intro sliced
  have fair := copyall_overshoots four_wf (by simp) (by simpa using four_fit) (by decide)
    (four_granted 1 (by decide)) sliced
  rcases fair.1 with zero | ⟨all, _⟩
  · cases zero
  · exact all rfl

end Embryo.Uipc
