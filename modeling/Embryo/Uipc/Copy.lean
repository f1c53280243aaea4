import Embryo.Uipc.Ledger

namespace Embryo.Uipc

open Embryo.Machine
open Embryo.Kmem (Arena kmemMalloc)

variable {A : Arena} {P : Pool} {live : List Mbuf}

structure Copied (P P' : Pool) (live : List Mbuf) (m n n' : Mbuf) (off len : Nat) (hdr : Bool) : Prop where
  calm : Calm P P' live
  addr : n'.addr = n.addr
  extent : n'.len = min m.len len
  data : bytes P'.mem n'.data n'.len = bytes P.mem (m.data + off) n'.len
  fit : off + n'.len ≤ m.len → n'.Fit
  pkthdr : n'.flags.pkthdr = hdr
  mpLen : hdr = true → n'.pkthdr.mpLen = if len = mCopyall then m.pkthdr.mpLen else len
  recvif : n'.pkthdr.mpRecvif = n.pkthdr.mpRecvif
  bcast : n'.flags.bcast = false
  mcast : n'.flags.mcast = false
  kmem : P'.kmem = P.kmem
  taken : P'.taken = P.taken
  freed : P'.freed = P.freed

def headed (m n : Mbuf) (len : Nat) (hdr : Bool) : Mbuf :=
  { (if hdr then
      { copyPkthdr n m with
        pkthdr := { (copyPkthdr n m).pkthdr with
          mpLen := if len = mCopyall then (copyPkthdr n m).pkthdr.mpLen else len } }
    else n) with len := min m.len len }

theorem copySegment_eq (A : Arena) (P : Pool) (m n : Mbuf) (off len : Nat) (hdr : Bool) :
    copySegment A P m n off len hdr =
      if m.flags.ext then
        if m.ext.meRef ≠ 0 then none
        else
          match P.count (mtocl A m.ext.meBuf) 1 with
          | none => none
          | some P => some ({ headed m n len hdr with
              data := wrap (m.data + off)
              ext := m.ext
              flags := { (headed m n len hdr).flags with ext := true } }, P)
      else
        match P.fill (headed m n len hdr) (m.data + off) (headed m n len hdr).data
          (headed m n len hdr).len with
        | none => none
        | some P => some (headed m n len hdr, P) := by
  cases hdr <;> rfl

theorem Wf.copy_segment {m n : Mbuf} (wf : Wf A P (n :: live)) (member : m ∈ live) (fit : m.Fit)
    (clear : n.flags = noFlags) (start : n.data = n.dat) (off len : Nat) (hdr : Bool)
    (bound : off ≤ m.len) (header : hdr = true → m.flags.pkthdr = true) :
    ∃ n' P', copySegment A P m n off len hdr = some (n', P') ∧ Wf A P' (n' :: live) ∧
      Copied P P' live m n n' off len hdr := by
  have plain : n.flags.ext = false := by rw [clear]; rfl
  have addr : (headed m n len hdr).addr = n.addr := by cases hdr <;> rfl
  have type : (headed m n len hdr).type = n.type := by cases hdr <;> rfl
  have ext : (headed m n len hdr).flags.ext = false := by cases hdr <;> first | rfl | exact plain
  have extent : (headed m n len hdr).len = min m.len len := rfl
  have pkthdr : (headed m n len hdr).flags.pkthdr = hdr := by
    cases hdr with
    | true => exact header rfl
    | false => simp [headed, clear, noFlags]
  have mpLen : hdr = true → (headed m n len hdr).pkthdr.mpLen =
      if len = mCopyall then m.pkthdr.mpLen else len := by
    rintro rfl
    rfl
  have recvif : (headed m n len hdr).pkthdr.mpRecvif = n.pkthdr.mpRecvif := by cases hdr <;> rfl
  have bcast : (headed m n len hdr).flags.bcast = false := by
    cases hdr <;> simp [headed, clear, noFlags, copyPkthdr, Flags.copied]
  have mcast : (headed m n len hdr).flags.mcast = false := by
    cases hdr <;> simp [headed, clear, noFlags, copyPkthdr, Flags.copied]
  have data : (headed m n len hdr).data = (headed m n len hdr).room.addr := by
    simp only [Mbuf.room, ext, Bool.false_eq_true, if_false, pkthdr]
    cases hdr with
    | true => rfl
    | false => exact start
  have size : m.flags.ext = false → (headed m n len hdr).len ≤ (headed m n len hdr).room.size := by
    intro internal
    obtain ⟨low, high⟩ := fit
    have inside : m.len ≤ m.room.size := by
      simp only [Region.stop] at high
      omega
    simp only [Mbuf.room, ext, internal, Bool.false_eq_true, if_false, pkthdr, extent] at inside ⊢
    cases hdr with
    | true =>
      rw [if_pos (header rfl)] at inside
      simp only [if_true] at inside ⊢
      omega
    | false =>
      simp only [Bool.false_eq_true, if_false]
      split at inside <;> simp only [mhlen, mlen, msize, sizeofMHdr, sizeofPkthdr] at inside ⊢ <;> omega
  rw [copySegment_eq]
  generalize headed m n len hdr = h at *
  cases shared : m.flags.ext with
  | true =>
    obtain ⟨carved, free, ref⟩ := wf.exts m (List.mem_cons_of_mem _ member) shared
    obtain ⟨P', counted, wf', calm, mem, taken, freed, kmem⟩ :=
      @Wf.share A P live n { h with
        data := wrap (m.data + off), ext := m.ext, flags := { h.flags with ext := true } } m wf
        plain member shared addr type rfl rfl
    have start : wrap (m.data + off) = m.data + off := by
      have := wf.room_lt (List.mem_cons_of_mem _ member)
      have := fit.2
      exact wrap_of_lt (by omega)
    refine ⟨_, P', ?_, wf', ?_⟩
    · simp only [if_true, ref, ne_eq, not_true_eq_false, if_false, counted]
    · constructor
      · exact calm
      · exact addr
      · exact extent
      · simp only [start, mem]
      · intro inside
        obtain ⟨low, high⟩ := fit
        simp only [Mbuf.Fit, Mbuf.room, if_true, shared, start] at *
        omega
      · exact pkthdr
      · exact mpLen
      · exact recvif
      · exact bcast
      · exact mcast
      · exact kmem
      · exact taken
      · exact freed
  | false =>
    have wfH : Wf A P (h :: live) := wf.adjust addr type (by rw [ext, plain]) (by simp [plain])
    have high : h.data + h.len ≤ h.room.stop := by
      have := size shared
      simp only [Region.stop]
      omega
    obtain ⟨filled, wf', calm⟩ := @Wf.fill A P live h wfH ext (m.data + off) h.data h.len
      (Nat.le_of_eq data.symm) high
    refine ⟨h, _, ?_, wf', ?_⟩
    · simp only [Bool.false_eq_true, if_false, filled]
    · constructor
      · exact calm
      · exact addr
      · exact extent
      · exact bytes_bcopy _ _ _ _
      · intro _
        exact ⟨Nat.le_of_eq data.symm, high⟩
      · exact pkthdr
      · exact mpLen
      · exact recvif
      · exact bcast
      · exact mcast
      · rfl
      · rfl
      · rfl

theorem copied_perm (n : Mbuf) (top live : List Mbuf) :
    (n :: (top ++ live)).Perm (top ++ [n] ++ live) := by
  rw [List.append_assoc]
  exact List.perm_middle.symm

theorem took_calm (P : Pool) (k : Kmem.State) (p type : Nat) (live : List Mbuf) :
    Calm P (took P k p type) live := ⟨fun _ _ _ _ _ => rfl, rfl⟩

theorem Wf.copy_step {top : Chain} (wf : Wf A P (top ++ live)) {m : Mbuf} (rest : Chain) (member : m ∈ live)
    (fit : m.Fit) (off : Nat) {len : Nat} (hdr : Bool) (bound : off ≤ m.len)
    (header : hdr = true → m.flags.pkthdr = true) (nonzero : len ≠ 0)
    (granted : (kmemMalloc A P.kmem msize).1 ≠ 0) :
    ∃ n' P₂, copyLoop A (m :: rest) off len hdr top P =
        copyLoop A rest 0 (if len = mCopyall then len else len - n'.len) false (top ++ [n']) P₂ ∧
      Wf A P₂ (top ++ [n'] ++ live) ∧ Calm P P₂ (top ++ live) ∧
      P₂.kmem = (kmemMalloc A P.kmem msize).2 ∧
      Copied (took P (kmemMalloc A P.kmem msize).2 (kmemMalloc A P.kmem msize).1 m.type) P₂ (top ++ live) m
        (initial (P.stale (kmemMalloc A P.kmem msize).1) (kmemMalloc A P.kmem msize).1 m.type false)
        n' off len hdr := by
  rcases wf.take (wf.types m (List.mem_append_right _ member)) false with
    ⟨zero, _⟩ | ⟨p, k, call, _, given, wf₁⟩
  · exact absurd zero granted
  · obtain ⟨n', P₂, segment, wf₂, copied⟩ := wf₁.copy_segment (List.mem_append_right top member) fit rfl rfl
      off len hdr bound header
    rw [call]
    refine ⟨n', P₂, ?_, wf₂.perm (copied_perm n' top live), ?_, copied.kmem, copied⟩
    · rw [copyLoop, if_neg nonzero, mbufGet, given]
      simp only [segment]
    · exact (took_calm P k p m.type (top ++ live)).trans copied.calm (fun e h => h)

theorem Wf.copy_loop {chain top : Chain} {off len : Nat} {hdr : Bool} (wf : Wf A P (top ++ live))
    (members : ∀ m ∈ chain, m ∈ live) (fit : ∀ m ∈ chain, m.Fit)
    (bound : ∀ m ∈ chain.head?, off ≤ m.len)
    (header : hdr = true → ∀ m ∈ chain.head?, m.flags.pkthdr = true) :
    ∃ new P', copyLoop A chain off len hdr top P = some (new, P') ∧
      Moved A (addrs live) P P' (top ++ live) (new ++ live) ∧ Calm P P' live := by
  induction chain generalizing P top off len hdr with
  | nil =>
    rw [copyLoop]
    split
    · exact ⟨top, P, rfl, .refl _ wf, Calm.refl P live⟩
    · obtain ⟨P', freed, moved, calm⟩ := wf.freem_moved (addrs live)
      exact ⟨[], P', by rw [freed], moved, calm⟩
  | cons m rest ih =>
    have member : m ∈ live := members m List.mem_cons_self
    by_cases none : len = 0
    · exact ⟨top, P, by rw [copyLoop, if_pos none], .refl _ wf, Calm.refl P live⟩
    · by_cases granted : (kmemMalloc A P.kmem msize).1 = 0
      · rcases wf.take (wf.types m (List.mem_append_right _ member)) false with
          ⟨_, failed⟩ | ⟨p, k, call, nonzero, _⟩
        · obtain ⟨P', freed, moved, calm⟩ := wf.freem_moved (addrs live)
          refine ⟨[], P', ?_, moved, calm⟩
          rw [copyLoop, if_neg none, mbufGet, failed]
          simp only [freed]
        · rw [call] at granted
          exact absurd granted nonzero
      · obtain ⟨n', P₂, step, wf₂, calm₂, _, copied⟩ := wf.copy_step rest member (fit m List.mem_cons_self)
          off hdr (bound m rfl) (fun h => header h m rfl) none granted
        have taken : Moved A (addrs live) P P₂ (top ++ live) (top ++ [n'] ++ live) := by
          refine ⟨wf₂, [n'.addr], [], ?_, copied.freed, ?_, ?_⟩
          · rw [copied.taken, copied.addr]
            rfl
          · exact (copied_perm n' top live).symm.map Mbuf.addr
          · intro a fresh watched
            have unique := (wf₂.perm (copied_perm n' top live).symm).nodup
            rw [List.mem_singleton.mp fresh] at watched
            apply (List.nodup_cons.mp unique).1
            rw [List.map_append]
            exact List.mem_append_right _ watched
        obtain ⟨new, P', looped, moved, calm⟩ := @ih P₂ (top ++ [n']) 0 _ false wf₂
          (fun e h => members e (List.mem_cons_of_mem _ h)) (fun e h => fit e (List.mem_cons_of_mem _ h))
          (fun _ _ => Nat.zero_le _) (by simp)
        exact ⟨new, P', step.trans looped, taken.trans moved,
          calm₂.trans calm (fun e h => List.mem_append_right top h)⟩

theorem skip_spec {chain chain' : Chain} {off off' : Nat} (skipped : skip chain off = some (chain', off')) :
    (∀ m ∈ chain', m ∈ chain) ∧ (∀ m ∈ chain'.head?, off' ≤ m.len) ∧
      (off = 0 → chain' = chain ∧ off' = 0) := by
  induction chain generalizing off with
  | nil =>
    unfold skip at skipped
    split at skipped
    · simp only [Option.some.injEq, Prod.mk.injEq] at skipped
      obtain ⟨rfl, rfl⟩ := skipped
      exact ⟨fun _ h => h, fun _ _ => Nat.zero_le _, fun _ => ⟨rfl, rfl⟩⟩
    · cases skipped
  | cons m rest ih =>
    unfold skip at skipped
    split at skipped
    · simp only [Option.some.injEq, Prod.mk.injEq] at skipped
      obtain ⟨rfl, rfl⟩ := skipped
      exact ⟨fun _ h => h, fun _ _ => Nat.zero_le _, fun _ => ⟨rfl, rfl⟩⟩
    · rename_i nonzero
      split at skipped
      · rename_i less
        simp only [Option.some.injEq, Prod.mk.injEq] at skipped
        obtain ⟨rfl, rfl⟩ := skipped
        refine ⟨fun _ h => h, ?_, fun zero => absurd zero nonzero⟩
        intro e first
        simp only [List.head?_cons, Option.mem_def, Option.some.injEq] at first
        rw [← first]
        omega
      · obtain ⟨subset, bound, _⟩ := ih skipped
        exact ⟨fun e h => List.mem_cons_of_mem _ (subset e h), bound, fun zero => absurd zero nonzero⟩

theorem Wf.copy {first : Mbuf} {rest : Chain} (wf : Wf A P live) (members : ∀ m ∈ first :: rest, m ∈ live)
    (fit : ∀ m ∈ first :: rest, m.Fit) (off0 len : Nat) :
    ∃ new P', mbufCopy A P (first :: rest) off0 len = some (new, P') ∧
      Moved A (addrs live) P P' live (new ++ live) ∧ Calm P P' live := by
  cases skipped : skip (first :: rest) off0 with
  | none => exact ⟨[], P, by simp only [mbufCopy, skipped], .refl _ wf, Calm.refl P live⟩
  | some found =>
    obtain ⟨chain, off⟩ := found
    obtain ⟨subset, bound, start⟩ := skip_spec skipped
    simp only [mbufCopy, skipped]
    apply @Wf.copy_loop A P live chain [] off len _ wf (fun m h => members m (subset m h))
      (fun m h => fit m (subset m h)) bound
    intro hdr m head
    simp only [decide_eq_true_eq] at hdr
    obtain ⟨rfl, _⟩ := start hdr.1
    simp only [List.head?_cons, Option.mem_def, Option.some.injEq] at head
    rw [← head]
    exact hdr.2

end Embryo.Uipc
