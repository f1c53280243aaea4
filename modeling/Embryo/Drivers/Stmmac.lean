import Embryo.Machine.Slots
import Embryo.Machine.Word

namespace Embryo.Drivers

open Embryo.Machine

structure TxDesc where
  own : Bool
  firstSegment : Bool
  lastSegment : Bool
  interrupt : Bool
  checksumInsertion : Nat
  errorSummary : Bool
  endRing : Bool
  buffer1Size : Nat
  buffer2Size : Nat
  des2 : Nat
deriving DecidableEq

/-- The settings of the ring, with the bus address of a buffer and what the descriptors held before. -/
structure Ring where
  txRingSz : Nat
  bufsize : Nat
  txCoe : Bool
  dmaMap : Nat → Nat
  before : Nat → TxDesc

/-- A buffer given back, with the owner bit of its descriptor and whether the DMA was running then. -/
structure Freed where
  buf : Nat
  own : Bool
  running : Bool
deriving DecidableEq

/-- A `stmmac_device`. The buffers allocated so far are numbered, and `clobbered` notes a write to a
    descriptor or a slot still in use. -/
structure Stmmac where
  cur : Nat
  dirty : Nat
  desc : Nat → TxDesc
  buf : Nat → Option Nat
  running : Bool
  allocated : Nat
  freed : List Freed
  clobbered : Bool
  opackets : Nat
  oerrors : Nat

structure Packet where
  len : Nat
  granted : Bool

inductive Sent
  | done
  | busy
  | noBufs

namespace Ring

variable (r : Ring)

def initTxDesc (desc : Nat → TxDesc) (i : Nat) : TxDesc :=
  if i < r.txRingSz then
    { desc i with own := false, endRing := i == r.txRingSz - 1 || (desc i).endRing } else desc i

def init : Stmmac where
  cur := 0
  dirty := 0
  desc := r.initTxDesc fun i => { r.before i with des2 := 0 }
  buf := fun _ => none
  running := true
  allocated := 0
  freed := []
  clobbered := false
  opackets := 0
  oerrors := 0

def txAvail (s : Stmmac) : Nat := wsub (wsub (wrap (s.dirty + r.txRingSz)) s.cur) 1

def prepareTxDesc (d : TxDesc) (len : Nat) (chksum : Bool) : TxDesc :=
  let d := { d with firstSegment := true }
  let d := if len > 4096 then { d with buffer1Size := 4096, buffer2Size := len - 4096 }
    else { d with buffer1Size := len }
  if chksum then { d with checksumInsertion := 1 } else d

def place (s : Stmmac) (len : Nat) : Stmmac :=
  let entry := s.cur % r.txRingSz
  let d := prepareTxDesc { s.desc entry with des2 := r.dmaMap s.allocated } len r.txCoe
  { s with
    cur := wrap (s.cur + 1)
    desc := Function.update s.desc entry { d with lastSegment := true, interrupt := true, own := true }
    buf := Function.update s.buf entry (some s.allocated)
    allocated := s.allocated + 1
    clobbered := s.clobbered || (s.buf entry).isSome || (s.desc entry).own }

def xmit (s : Stmmac) : List Packet → Sent × Stmmac
  | [] => (.done, s)
  | m :: rest =>
    if r.txAvail s = 0 then (.busy, s)
    else if m.len > r.bufsize then (.noBufs, s)
    else if m.granted then xmit (r.place s m.len) rest
    else
      let entry := s.cur % r.txRingSz
      (.noBufs,
        { s with buf := Function.update s.buf entry none, clobbered := s.clobbered || (s.buf entry).isSome })

def releaseTxDesc (d : TxDesc) : TxDesc := ⟨false, false, false, false, 0, false, d.endRing, 0, 0, 0⟩

def freeSlot (s : Stmmac) (entry : Nat) : Stmmac :=
  match s.buf entry with
  | none => s
  | some buf => { s with
      freed := ⟨buf, (s.desc entry).own, s.running⟩ :: s.freed
      buf := Function.update s.buf entry none }

def reclaim (s : Stmmac) : Stmmac :=
  let entry := s.dirty % r.txRingSz
  let d := s.desc entry
  let s := if d.lastSegment then
      if d.errorSummary then { s with oerrors := s.oerrors + 1 } else { s with opackets := s.opackets + 1 }
    else s
  let s := freeSlot s entry
  { s with desc := Function.update s.desc entry (releaseTxDesc d), dirty := wrap (s.dirty + 1) }

/-- The loop of `stmmac_tx`, with so many descriptors from `dirty` to `cur`. -/
def txLoop : Nat → Stmmac → Stmmac
  | 0, s => s
  | n + 1, s => if (s.desc (s.dirty % r.txRingSz)).own then s else txLoop n (r.reclaim s)

def tx (s : Stmmac) : Stmmac := r.txLoop (wsub s.cur s.dirty) s

def freeTxBuf : List Nat → Stmmac → Stmmac
  | [], s => s
  | i :: rest, s =>
    match s.buf i with
    | none => freeTxBuf rest s
    | some _ =>
      freeTxBuf rest { freeSlot s i with desc := Function.update s.desc i { s.desc i with des2 := 0 } }

def txErr (s : Stmmac) : Stmmac :=
  let s := { s with running := false }
  let s := freeTxBuf (List.range r.txRingSz) s
  { s with desc := r.initTxDesc s.desc, cur := 0, dirty := 0, running := true }

def complete (s : Stmmac) (entry : Nat) (error : Bool) : Stmmac :=
  if (s.desc entry).own then
    { s with desc := Function.update s.desc entry { s.desc entry with own := false, errorSummary := error } }
  else s

end Ring

inductive TxEvent
  | xmit (queue : List Packet)
  | complete (entry : Nat) (error : Bool)
  | tx
  | txErr

def Ring.step (r : Ring) (s : Stmmac) : TxEvent → Stmmac
  | .xmit queue => (r.xmit s queue).2
  | .complete entry error => Ring.complete s entry error
  | .tx => r.tx s
  | .txErr => r.txErr s

def Ring.run (r : Ring) (events : List TxEvent) : Stmmac := events.foldl r.step r.init

def Ring.held (r : Ring) (s : Stmmac) : List Nat := gather (List.range r.txRingSz) fun e => (s.buf e).toList

def Ring.Ledger (r : Ring) (s : Stmmac) : Prop :=
  (s.freed.map Freed.buf ++ r.held s).Perm (List.range s.allocated)

def Freed.Released (f : Freed) : Prop := f.own = false ∨ f.running = false

/-- What holds between the events: the slots in use are those from `dirty` to `cur`. -/
structure Ring.Kept (r : Ring) (s : Stmmac) : Prop where
  cur : s.cur < 2^32
  dirty : s.dirty < 2^32
  used : wsub s.cur s.dirty < r.txRingSz
  live : ∀ e < r.txRingSz, (s.buf e).isSome = true ↔ ∃ j < wsub s.cur s.dirty, (s.dirty + j) % r.txRingSz = e
  owned : ∀ e < r.txRingSz, (s.desc e).own = true → (s.buf e).isSome = true
  clear : s.clobbered = false
  ledger : r.Ledger s
  released : ∀ f ∈ s.freed, f.Released

section

variable {r : Ring} {s : Stmmac} {e : Nat}

theorem held_update (inside : e < r.txRingSz) (buf : Option Nat) :
    (r.held { s with buf := Function.update s.buf e buf } ++ (s.buf e).toList).Perm
      (r.held s ++ buf.toList) := by
  have swapped := gather_update List.nodup_range (List.mem_range.mpr inside)
    (fun e => (s.buf e).toList) buf.toList
  have same : (fun x => ((Function.update s.buf e buf) x).toList) =
      Function.update (fun e => (s.buf e).toList) e buf.toList := by
    funext x
    by_cases here : x = e
    · subst here
      simp
    · simp [here]
  rw [← same] at swapped
  exact swapped

theorem freeSlot_ledger (inside : e < r.txRingSz) (ledger : r.Ledger s) : r.Ledger (Ring.freeSlot s e) := by
  unfold Ring.freeSlot
  rcases held : s.buf e with _ | b
  · exact ledger
  · have swapped := held_update (r := r) (s := s) inside none
    rw [held, Option.toList_none, List.append_nil] at swapped
    show (b :: s.freed.map Freed.buf ++ r.held { s with buf := Function.update s.buf e none }).Perm
      (List.range s.allocated)
    apply List.Perm.trans _ ledger
    apply List.Perm.trans _ (swapped.append_left _)
    rw [← List.append_assoc]
    exact (List.perm_append_singleton b _).symm

@[simp] theorem freeSlot_buf : (Ring.freeSlot s e).buf = Function.update s.buf e none := by
  unfold Ring.freeSlot
  split
  · rename_i empty
    rw [← empty, Function.update_eq_self]
  · rfl

@[simp] theorem freeSlot_desc : (Ring.freeSlot s e).desc = s.desc := by
  unfold Ring.freeSlot
  split <;> rfl

@[simp] theorem freeSlot_running : (Ring.freeSlot s e).running = s.running := by
  unfold Ring.freeSlot
  split <;> rfl

@[simp] theorem freeSlot_clobbered : (Ring.freeSlot s e).clobbered = s.clobbered := by
  unfold Ring.freeSlot
  split <;> rfl

@[simp] theorem freeSlot_cur : (Ring.freeSlot s e).cur = s.cur := by
  unfold Ring.freeSlot
  split <;> rfl

@[simp] theorem freeSlot_dirty : (Ring.freeSlot s e).dirty = s.dirty := by
  unfold Ring.freeSlot
  split <;> rfl

@[simp] theorem freeSlot_allocated : (Ring.freeSlot s e).allocated = s.allocated := by
  unfold Ring.freeSlot
  split <;> rfl

theorem freeSlot_released (released : ∀ f ∈ s.freed, f.Released)
    (now : (s.desc e).own = false ∨ s.running = false) :
    ∀ f ∈ (Ring.freeSlot s e).freed, f.Released := by
  unfold Ring.freeSlot
  split
  · exact released
  · intro f member
    rcases List.mem_cons.mp member with rfl | member
    · exact now
    · exact released f member

theorem wrap_mod {sz : Nat} (divides : sz ∣ 2^32) (x : Nat) : wrap x % sz = x % sz :=
  Nat.mod_mod_of_dvd x divides

theorem entry_inj {sz d j k : Nat} (same : (d + j) % sz = (d + k) % sz) (less : j < sz)
    (less' : k < sz) : j = k :=
  Nat.ModEq.eq_of_lt_of_lt (Nat.ModEq.add_left_cancel' d same) less less'

theorem init_used (r : Ring) : wsub r.init.cur r.init.dirty = 0 := show wsub 0 0 = 0 by decide

theorem init_kept (positive : 0 < r.txRingSz) : r.Kept r.init where
  cur := show 0 < 2^32 by decide
  dirty := show 0 < 2^32 by decide
  used := by rwa [init_used]
  live := by
    intro e inside
    rw [init_used]
    constructor
    · nofun
    · rintro ⟨j, less, _⟩
      exact absurd less (Nat.not_lt_zero j)
  owned := by
    intro e inside own
    simp only [Ring.init, Ring.initTxDesc, if_pos inside] at own
    cases own
  clear := rfl
  ledger := by
    have none : r.held r.init = [] := by simp [Ring.held, Ring.init, gather]
    rw [Ring.Ledger, none]
    exact List.Perm.refl _
  released := nofun

theorem next_idle (divides : r.txRingSz ∣ 2^32) (kept : r.Kept s) (room : r.txAvail s ≠ 0) :
    wsub s.cur s.dirty + 1 < r.txRingSz ∧ s.cur % r.txRingSz < r.txRingSz ∧
      (s.dirty + wsub s.cur s.dirty) % r.txRingSz = s.cur % r.txRingSz ∧
      s.buf (s.cur % r.txRingSz) = none ∧ (s.desc (s.cur % r.txRingSz)).own = false := by
  have cur := kept.cur
  have dirty := kept.dirty
  have used := kept.used
  have size : r.txRingSz ≤ 2^32 := Nat.le_of_dvd (by decide) divides
  have inside : s.cur % r.txRingSz < r.txRingSz := Nat.mod_lt _ (by omega)
  have more : wsub s.cur s.dirty + 1 < r.txRingSz := by
    unfold Ring.txAvail at room
    simp only [wsub, wrap] at room used ⊢
    omega
  have here : (s.dirty + wsub s.cur s.dirty) % r.txRingSz = s.cur % r.txRingSz := by
    have same : s.cur = wrap (s.dirty + wsub s.cur s.dirty) := by
      simp only [wsub, wrap]
      omega
    conv_rhs => rw [same, wrap_mod divides]
  have fresh : s.buf (s.cur % r.txRingSz) = none := by
    rw [← Option.not_isSome_iff_eq_none, kept.live _ inside, ← here]
    rintro ⟨j, less, same⟩
    have equal := entry_inj same (by omega) (by omega)
    omega
  have idle : (s.desc (s.cur % r.txRingSz)).own = false := by
    cases own : (s.desc (s.cur % r.txRingSz)).own with
    | false => rfl
    | true =>
      have some := kept.owned _ inside own
      rw [fresh] at some
      cases some
  exact ⟨more, inside, here, fresh, idle⟩

theorem place_kept (divides : r.txRingSz ∣ 2^32) (kept : r.Kept s) (room : r.txAvail s ≠ 0) (len : Nat) :
    r.Kept (r.place s len) := by
  obtain ⟨more, inside, here, fresh, idle⟩ := next_idle divides kept room
  have size : r.txRingSz ≤ 2^32 := Nat.le_of_dvd (by decide) divides
  have grown : wsub (wrap (s.cur + 1)) s.dirty = wsub s.cur s.dirty + 1 := by
    have cur := kept.cur
    have dirty := kept.dirty
    simp only [wsub, wrap] at more ⊢
    omega
  constructor
  · exact wrap_lt _
  · exact kept.dirty
  · show wsub (wrap (s.cur + 1)) s.dirty < r.txRingSz
    omega
  · intro e within
    show (Function.update s.buf (s.cur % r.txRingSz) (some s.allocated) e).isSome = true ↔
      ∃ j < wsub (wrap (s.cur + 1)) s.dirty, (s.dirty + j) % r.txRingSz = e
    rw [grown]
    by_cases same : e = s.cur % r.txRingSz
    · rw [same, Function.update_self]
      exact iff_of_true rfl ⟨_, Nat.lt_succ_self _, here⟩
    · rw [Function.update_of_ne same, kept.live e within]
      constructor
      · rintro ⟨j, less, place⟩
        exact ⟨j, by omega, place⟩
      · rintro ⟨j, less, place⟩
        refine ⟨j, ?_, place⟩
        by_contra last
        have top : j = wsub s.cur s.dirty := by omega
        rw [top, here] at place
        exact same place.symm
  · intro e within own
    show (Function.update s.buf (s.cur % r.txRingSz) (some s.allocated) e).isSome = true
    by_cases same : e = s.cur % r.txRingSz
    · rw [same, Function.update_self]
      rfl
    · rw [Function.update_of_ne same]
      apply kept.owned e within
      unfold Ring.place at own
      simp only [Function.update_of_ne same] at own
      exact own
  · show (s.clobbered || (s.buf (s.cur % r.txRingSz)).isSome || (s.desc (s.cur % r.txRingSz)).own) = false
    rw [kept.clear, fresh, idle]
    rfl
  · have swapped := held_update (r := r) (s := s) inside (some s.allocated)
    rw [fresh, Option.toList_none, List.append_nil, Option.toList_some] at swapped
    show (s.freed.map Freed.buf ++ r.held { s with
      buf := Function.update s.buf (s.cur % r.txRingSz) (some s.allocated) }).Perm
      (List.range (s.allocated + 1))
    rw [List.range_succ]
    apply (swapped.append_left _).trans
    rw [← List.append_assoc]
    exact kept.ledger.append_right _
  · exact kept.released

theorem xmit_kept (divides : r.txRingSz ∣ 2^32) (kept : r.Kept s) (queue : List Packet) :
    r.Kept (r.xmit s queue).2 := by
  induction queue generalizing s with
  | nil => exact kept
  | cons m rest ih =>
    rw [Ring.xmit]
    split
    · exact kept
    · rename_i room
      split
      · exact kept
      · split
        · exact ih (place_kept divides kept room m.len)
        · -- the slot that the refused request empties is empty already
          obtain ⟨_, _, _, fresh, _⟩ := next_idle divides kept room
          have same : { s with
              buf := Function.update s.buf (s.cur % r.txRingSz) none
              clobbered := s.clobbered || (s.buf (s.cur % r.txRingSz)).isSome } = s := by
            rw [← fresh, Function.update_eq_self, fresh, Option.isSome_none, Bool.or_false]
          show r.Kept { s with
              buf := Function.update s.buf (s.cur % r.txRingSz) none
              clobbered := s.clobbered || (s.buf (s.cur % r.txRingSz)).isSome }
          rwa [same]

theorem complete_kept (kept : r.Kept s) (error : Bool) : r.Kept (Ring.complete s e error) := by
  unfold Ring.complete
  split
  · refine { kept with owned := ?_ }
    intro i inside own
    by_cases same : i = e
    · simp only [same, Function.update_self] at own
      cases own
    · simp only [Function.update_of_ne same] at own
      exact kept.owned i inside own
  · exact kept

@[simp] theorem reclaim_buf : (r.reclaim s).buf = Function.update s.buf (s.dirty % r.txRingSz) none := by
  unfold Ring.reclaim
  simp only [freeSlot_buf]
  split <;> [split; skip] <;> rfl

@[simp] theorem reclaim_desc : (r.reclaim s).desc = Function.update s.desc (s.dirty % r.txRingSz)
    (Ring.releaseTxDesc (s.desc (s.dirty % r.txRingSz))) := by
  unfold Ring.reclaim
  simp only [freeSlot_desc]
  split <;> [split; skip] <;> rfl

@[simp] theorem reclaim_cur : (r.reclaim s).cur = s.cur := by
  unfold Ring.reclaim
  simp only [freeSlot_cur]
  split <;> [split; skip] <;> rfl

@[simp] theorem reclaim_dirty : (r.reclaim s).dirty = wrap (s.dirty + 1) := by
  unfold Ring.reclaim
  simp only [freeSlot_dirty]
  split <;> [split; skip] <;> rfl

@[simp] theorem reclaim_clobbered : (r.reclaim s).clobbered = s.clobbered := by
  unfold Ring.reclaim
  simp only [freeSlot_clobbered]
  split <;> [split; skip] <;> rfl

@[simp] theorem reclaim_allocated : (r.reclaim s).allocated = s.allocated := by
  unfold Ring.reclaim
  simp only [freeSlot_allocated]
  split <;> [split; skip] <;> rfl

theorem reclaim_ledger (inside : s.dirty % r.txRingSz < r.txRingSz) (ledger : r.Ledger s) :
    r.Ledger (r.reclaim s) := by
  unfold Ring.reclaim
  dsimp only
  split <;> [split; skip] <;> exact freeSlot_ledger inside ledger

theorem reclaim_released (released : ∀ f ∈ s.freed, f.Released)
    (done : (s.desc (s.dirty % r.txRingSz)).own = false) :
    ∀ f ∈ (r.reclaim s).freed, f.Released := by
  unfold Ring.reclaim
  dsimp only
  split <;> [split; skip] <;> exact freeSlot_released released (.inl done)

theorem reclaim_used (kept : r.Kept s) (some : wsub s.cur s.dirty ≠ 0) :
    wsub (r.reclaim s).cur (r.reclaim s).dirty + 1 = wsub s.cur s.dirty := by
  have cur := kept.cur
  have dirty := kept.dirty
  rw [reclaim_cur, reclaim_dirty]
  simp only [wsub, wrap] at some ⊢
  omega

theorem reclaim_kept (divides : r.txRingSz ∣ 2^32) (kept : r.Kept s) (some : wsub s.cur s.dirty ≠ 0)
    (done : (s.desc (s.dirty % r.txRingSz)).own = false) : r.Kept (r.reclaim s) := by
  have shorter := reclaim_used kept some
  have used := kept.used
  have inside : s.dirty % r.txRingSz < r.txRingSz := Nat.mod_lt _ (by omega)
  have next : ∀ j, ((r.reclaim s).dirty + j) % r.txRingSz = (s.dirty + (j + 1)) % r.txRingSz := by
    intro j
    rw [reclaim_dirty, Nat.add_mod, wrap_mod divides, ← Nat.add_mod]
    congr 1
    omega
  constructor
  · rw [reclaim_cur]
    exact kept.cur
  · rw [reclaim_dirty]
    exact wrap_lt _
  · omega
  · intro e within
    rw [reclaim_buf]
    by_cases same : e = s.dirty % r.txRingSz
    · rw [same, Function.update_self]
      refine iff_of_false nofun ?_
      rintro ⟨j, less, place⟩
      rw [next] at place
      have equal := entry_inj (k := 0) place (by omega) (by omega)
      omega
    · rw [Function.update_of_ne same, kept.live e within]
      constructor
      · rintro ⟨j, less, place⟩
        match j with
        | 0 => exact absurd place.symm same
        | j + 1 => exact ⟨j, by omega, by rw [next, place]⟩
      · rintro ⟨j, less, place⟩
        exact ⟨j + 1, by omega, by rw [← next, place]⟩
  · intro e within own
    rw [reclaim_desc] at own
    rw [reclaim_buf]
    by_cases same : e = s.dirty % r.txRingSz
    · rw [same, Function.update_self] at own
      cases own
    · rw [Function.update_of_ne same] at own ⊢
      exact kept.owned e within own
  · rw [reclaim_clobbered]
    exact kept.clear
  · exact reclaim_ledger inside kept.ledger
  · exact reclaim_released kept.released done

theorem txLoop_kept (divides : r.txRingSz ∣ 2^32) :
    ∀ n s, r.Kept s → wsub s.cur s.dirty = n → r.Kept (r.txLoop n s)
  | 0, _, kept, _ => kept
  | n + 1, s, kept, used => by
    rw [Ring.txLoop]
    split
    · exact kept
    · rename_i done
      have shorter := reclaim_used kept (by omega)
      exact txLoop_kept divides n _ (reclaim_kept divides kept (by omega)
        (Bool.eq_false_iff.mpr done)) (by omega)

theorem txLoop_empty (divides : r.txRingSz ∣ 2^32) : ∀ n s, r.Kept s → wsub s.cur s.dirty = n →
    (∀ e < r.txRingSz, (s.desc e).own = false) →
    wsub (r.txLoop n s).cur (r.txLoop n s).dirty = 0 ∧ (r.txLoop n s).allocated = s.allocated
  | 0, _, _, used, _ => ⟨used, rfl⟩
  | n + 1, s, kept, used, idle => by
    have inside : s.dirty % r.txRingSz < r.txRingSz := Nat.mod_lt _ (Nat.zero_lt_of_lt kept.used)
    have done := idle _ inside
    have shorter := reclaim_used kept (by omega)
    have idle' : ∀ e < r.txRingSz, ((r.reclaim s).desc e).own = false := by
      intro e within
      rw [reclaim_desc]
      by_cases same : e = s.dirty % r.txRingSz
      · rw [same, Function.update_self]
        rfl
      · rw [Function.update_of_ne same]
        exact idle e within
    have rest := txLoop_empty divides n _ (reclaim_kept divides kept (by omega) done) (by omega) idle'
    rw [Ring.txLoop, done]
    exact ⟨rest.1, rest.2.trans reclaim_allocated⟩

theorem all_freed (kept : r.Kept s) (empty : wsub s.cur s.dirty = 0) :
    (s.freed.map Freed.buf).Perm (List.range s.allocated) := by
  have none : r.held s = [] := by
    unfold Ring.held gather
    rw [List.flatMap_eq_nil_iff]
    intro e member
    have vacant : ¬ (s.buf e).isSome = true := by
      rw [kept.live e (List.mem_range.mp member), empty]
      rintro ⟨j, less, _⟩
      exact absurd less (Nat.not_lt_zero j)
    rw [Option.not_isSome_iff_eq_none.mp vacant, Option.toList_none]
  have ledger := kept.ledger
  rwa [Ring.Ledger, none, List.append_nil] at ledger

structure Emptied (r : Ring) (entries : List Nat) (s s' : Stmmac) : Prop where
  buf : ∀ e, s'.buf e = if e ∈ entries then none else s.buf e
  clobbered : s'.clobbered = s.clobbered
  ledger : r.Ledger s'
  released : ∀ f ∈ s'.freed, f.Released

theorem freeTxBuf_emptied (entries : List Nat) (inside : ∀ e ∈ entries, e < r.txRingSz)
    (stopped : s.running = false) (ledger : r.Ledger s) (released : ∀ f ∈ s.freed, f.Released) :
    Emptied r entries s (Ring.freeTxBuf entries s) := by
  induction entries generalizing s with
  | nil => exact ⟨fun e => by rw [if_neg List.not_mem_nil]; rfl, rfl, ledger, released⟩
  | cons i rest ih =>
    have inner := fun e member => inside e (List.mem_cons_of_mem _ member)
    rw [Ring.freeTxBuf]
    split
    · rename_i empty
      have done := ih inner stopped ledger released
      refine ⟨?_, done.clobbered, done.ledger, done.released⟩
      intro e
      rw [done.buf]
      by_cases same : e = i
      · rw [same, empty, ite_self, ite_self]
      · simp only [List.mem_cons, same, false_or]
    · have done := @ih { Ring.freeSlot s i with
        desc := Function.update s.desc i { s.desc i with des2 := 0 } } inner
        (freeSlot_running.trans stopped) (freeSlot_ledger (inside i List.mem_cons_self) ledger)
        (freeSlot_released released (.inr stopped))
      refine ⟨?_, done.clobbered.trans freeSlot_clobbered, done.ledger, done.released⟩
      intro e
      rw [done.buf, freeSlot_buf]
      by_cases same : e = i
      · rw [same, Function.update_self, ite_self, if_pos List.mem_cons_self]
      · simp only [List.mem_cons, same, false_or, Function.update_of_ne same]

theorem txErr_kept (positive : 0 < r.txRingSz) (kept : r.Kept s) : r.Kept (r.txErr s) := by
  have emptied := @freeTxBuf_emptied r { s with running := false } (List.range r.txRingSz)
    (fun _ => List.mem_range.mp) rfl
    kept.ledger kept.released
  have vacant : ∀ e < r.txRingSz, (r.txErr s).buf e = none := by
    intro e within
    show (Ring.freeTxBuf (List.range r.txRingSz) { s with running := false }).buf e = none
    rw [emptied.buf, if_pos (List.mem_range.mpr within)]
  have start : wsub (r.txErr s).cur (r.txErr s).dirty = 0 := show wsub 0 0 = 0 by decide
  constructor
  · exact show 0 < 2^32 by decide
  · exact show 0 < 2^32 by decide
  · rwa [start]
  · intro e within
    rw [vacant e within, start]
    refine iff_of_false nofun ?_
    rintro ⟨j, less, _⟩
    exact absurd less (Nat.not_lt_zero j)
  · intro e within own
    simp only [Ring.txErr, Ring.initTxDesc, if_pos within] at own
    cases own
  · exact emptied.clobbered.trans kept.clear
  · exact emptied.ledger
  · exact emptied.released

theorem step_kept (divides : r.txRingSz ∣ 2^32) (kept : r.Kept s) : ∀ event, r.Kept (r.step s event)
  | .xmit queue => xmit_kept divides kept queue
  | .complete _ error => complete_kept kept error
  | .tx => txLoop_kept divides _ s kept rfl
  | .txErr => txErr_kept (Nat.zero_lt_of_lt kept.used) kept

theorem run_kept (divides : r.txRingSz ∣ 2^32) (events : List TxEvent) : r.Kept (r.run events) := by
  have positive : 0 < r.txRingSz := Nat.pos_of_dvd_of_pos divides (by decide)
  have all : ∀ s, r.Kept s → r.Kept (events.foldl r.step s) := by
    induction events with
    | nil => exact fun _ kept => kept
    | cons event rest ih => exact fun s kept => ih _ (step_kept divides kept event)
  exact all _ (init_kept positive)

end

/-- Over every run at most `tx_ring_sz - 1` descriptors are in use and none of them is written
    again; each buffer allocated lies in one slot or has been freed once, after its descriptor was
    released or under a stopped DMA; and when the hardware owns no descriptor `stmmac_tx` frees all
    of them. -/
theorem Ring.transmits (r : Ring) (power : ∃ k < 32, r.txRingSz = 2^k) (events : List TxEvent) :
    wsub (r.run events).cur (r.run events).dirty < r.txRingSz ∧ (r.run events).clobbered = false ∧
      r.Ledger (r.run events) ∧ (∀ f ∈ (r.run events).freed, f.Released) ∧
      ((∀ e < r.txRingSz, ((r.run events).desc e).own = false) →
        ((r.tx (r.run events)).freed.map Freed.buf).Perm (List.range (r.run events).allocated)) := by
  obtain ⟨k, small, size⟩ := power
  have divides : r.txRingSz ∣ 2^32 := by
    rw [size]
    exact Nat.pow_dvd_pow 2 (Nat.le_of_lt small)
  have kept := run_kept divides events
  refine ⟨kept.used, kept.clear, kept.ledger, kept.released, fun idle => ?_⟩
  have empty := txLoop_empty divides _ _ kept rfl idle
  rw [← empty.2]
  exact all_freed (txLoop_kept divides _ _ kept rfl) empty.1

def eight : Ring :=
  ⟨8, 1536, false, fun n => 0x1000 * (n + 1), fun _ => ⟨false, false, false, false, 0, false, false, 0, 0, 0⟩⟩

theorem one_packet_sent :
    (eight.tx (eight.run [.xmit [⟨60, true⟩], .complete 0 false])).freed.map Freed.buf = [0] := by
  have sent := (eight.transmits ⟨3, by decide, rfl⟩ [.xmit [⟨60, true⟩], .complete 0 false]).2.2.2.2
  exact List.perm_singleton.mp (sent (by decide))

/-- `stmmac_tx_err` frees a buffer whose descriptor still belongs to the hardware. -/
theorem error_frees_owned : ¬ ∀ f ∈ (eight.run [.xmit [⟨60, true⟩], .txErr]).freed, f.own = false := by decide

end Embryo.Drivers
