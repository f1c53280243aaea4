import Embryo.Uipc.Clusters

namespace Embryo.Uipc

open Embryo.Machine
open Embryo.Kmem (Arena kmemMalloc)

/-- The packet header of `first` is still the header of the chain `new`, and of its first
    mbuf only. -/
structure HeaderKept (first : Mbuf) (new : Chain) : Prop where
  head : ∃ m ∈ new.head?, m.flags.pkthdr = true ∧ m.pkthdr.mpRecvif = first.pkthdr.mpRecvif ∧
    m.flags.bcast = first.flags.bcast ∧ m.flags.mcast = first.flags.mcast
  tail : ∀ m ∈ new.tail, m.flags.pkthdr = false

def staleRecvif (A : Arena) (P : Pool) : Nat := (P.stale (kmemMalloc A P.kmem msize).1).pkthdr.mpRecvif

def Flags.Unicast (f : Flags) : Prop := f.bcast = false ∧ f.mcast = false

variable {A : Arena} {P P' : Pool}

theorem kmemMalloc_zero {k : Kmem.State} {size : Nat} (failed : (kmemMalloc A k size).1 = 0) :
    (kmemMalloc A k size).2 = k := by
  have alloc : ∀ n, (Kmem.kmemAlloc A k n).1 = 0 → (Kmem.kmemAlloc A k n).2 = k := by
    intro n
    rw [show Kmem.kmemAlloc A k n = if wrap (Kmem.roundPage n + k.kmemoffs) > Kmem.kmemSize then (0, k)
      else (A.kmembase + k.kmemoffs, { k with kmemoffs := k.kmemoffs + Kmem.roundPage n }) from rfl]
    split
    · exact fun _ => rfl
    · intro zero
      have := A.positive
      have sum : A.kmembase + k.kmemoffs = 0 := zero
      omega
  have popped : ∀ (k : Kmem.State) i, (k.buckets i).kbNext ≠ 0 → (Kmem.pop k i).1 ≠ 0 := fun _ _ h => h
  -- for any pair, so that the kernel does not compute the one that is given
  have kept : ∀ call : Nat × Kmem.State, call.2 = k → ((0, call.2) : Nat × Kmem.State).2 = k :=
    fun _ same => same
  have given : ∀ (call : Nat × Kmem.State) (k' : Kmem.State), call.1 ≠ 0 →
      ((call.1, k') : Nat × Kmem.State).1 ≠ 0 :=
    fun _ _ nonzero => nonzero
  have filled : ∀ (call : Nat × Kmem.State) i, call.1 ≠ 0 →
      (Kmem.pop (Kmem.refill A call.2 i call.1) i).1 ≠ 0 := by
    intro call i nonzero
    simpa only [Kmem.pop, Kmem.refill, Function.update_self] using nonzero
  revert failed
  rw [Kmem.kmemMalloc_eq]
  split
  · split
    · split
      · next zero => exact fun _ => kept _ (alloc _ zero)
      · next nonzero => exact fun failed => absurd failed (filled _ _ nonzero)
    · next some => exact fun failed => absurd failed (popped _ _ some)
  · split
    · exact fun _ => rfl
    · split
      · next zero => exact fun _ => kept _ (alloc _ zero)
      · next nonzero => exact fun failed => absurd failed (given _ _ nonzero)

theorem mbufGet_some {type : Nat} {m : Mbuf} (call : mbufGet A P type = (some m, P')) :
    m = initial (P.stale (kmemMalloc A P.kmem msize).1) (kmemMalloc A P.kmem msize).1 type false := by
  simp only [mbufGet, mbufTake] at call
  split at call
  · cases call
  · by_cases zero : (kmemMalloc A P.kmem msize).1 = 0
    · have same := kmemMalloc_zero zero
      simp only [mget, zero, if_true, same] at call
      cases call
    · simp only [mget, zero, if_false, Prod.mk.injEq, Option.some.injEq] at call
      exact call.1.symm

theorem pull_headers {s s' : Pulling} {first : Mbuf} {rest : Chain} {count : Nat}
    (passed : pull A s first rest count = some s') (plain : ∀ m ∈ first :: rest, m.flags.pkthdr = false) :
    s'.m.flags = s.m.flags ∧ s'.m.pkthdr = s.m.pkthdr ∧ ∀ m ∈ s'.n, m.flags.pkthdr = false := by
  unfold pull at passed
  split at passed
  · cases passed
  · dsimp only at passed
    split at passed
    · simp only [Option.some.injEq] at passed
      subst passed
      refine ⟨rfl, rfl, ?_⟩
      intro m member
      rcases List.mem_cons.mp member with rfl | member
      · exact plain first List.mem_cons_self
      · exact plain m (List.mem_cons_of_mem _ member)
    · split at passed
      · cases passed
      · simp only [Option.some.injEq] at passed
        subst passed
        exact ⟨rfl, rfl, fun m member => plain m (List.mem_cons_of_mem _ member)⟩

theorem pullLoop_headers {limit : Pulling → Nat} {fuel : Nat} {s s' : Pulling}
    (left : loop (pullPass A limit) fuel s = some s') (plain : ∀ m ∈ s.n, m.flags.pkthdr = false) :
    s'.m.flags = s.m.flags ∧ s'.m.pkthdr = s.m.pkthdr ∧ ∀ m ∈ s'.n, m.flags.pkthdr = false := by
  apply loop_invariant
    (fun t : Pulling => t.m.flags = s.m.flags ∧ t.m.pkthdr = s.m.pkthdr ∧ ∀ m ∈ t.n, m.flags.pkthdr = false)
    (fun t : Pulling => t.m.flags = s.m.flags ∧ t.m.pkthdr = s.m.pkthdr ∧ ∀ m ∈ t.n, m.flags.pkthdr = false)
    _ _ left ⟨rfl, rfl, plain⟩
  · intro t next passed kept
    unfold pullPass at passed
    split at passed
    · cases passed
    · rename_i first rest nodes
      split at passed
      · cases passed
      · split at passed
        · cases passed
        · rename_i u pulled
          simp only [Option.some.injEq, Pass.again.injEq] at passed
          subst passed
          have moved := pull_headers pulled (by rw [← nodes]; exact kept.2.2)
          exact ⟨moved.1.trans kept.1, moved.2.1.trans kept.2.1, moved.2.2⟩
  · intro t result passed kept
    unfold pullPass at passed
    split at passed
    · simp only [Option.some.injEq, Pass.leave.injEq] at passed
      exact passed ▸ kept
    · split at passed
      · simp only [Option.some.injEq, Pass.leave.injEq] at passed
        exact passed ▸ kept
      · split at passed <;> cases passed

theorem pullEnd_headers {s : Pulling} {new : Chain} (ended : pullEnd A s = some (new, P'))
    (some : new ≠ []) : new = s.m :: s.n := by
  unfold pullEnd at ended
  split at ended
  · split at ended
    · cases ended
    · split at ended
      · cases ended
      · simp only [Option.some.injEq, Prod.mk.injEq] at ended
        exact absurd ended.1.symm some
  · simp only [Option.some.injEq, Prod.mk.injEq] at ended
    exact ended.1.symm

theorem headerKept_cons {first m : Mbuf} {n : Chain} (plain : ∀ e ∈ n, e.flags.pkthdr = false) :
    HeaderKept first (m :: n) ↔ m.flags.pkthdr = true ∧ m.pkthdr.mpRecvif = first.pkthdr.mpRecvif ∧
      m.flags.bcast = first.flags.bcast ∧ m.flags.mcast = first.flags.mcast := by
  constructor
  · rintro ⟨⟨e, isHead, kept⟩, _⟩
    simp only [List.head?_cons, Option.mem_def, Option.some.injEq] at isHead
    rw [isHead]
    exact kept
  · intro kept
    exact ⟨⟨m, rfl, kept⟩, plain⟩

theorem headerKept_same {first m : Mbuf} {n : Chain} (flagged : first.flags.pkthdr = true)
    (plain : ∀ e ∈ n, e.flags.pkthdr = false) (flags : m.flags = first.flags)
    (recvif : m.pkthdr.mpRecvif = first.pkthdr.mpRecvif) : HeaderKept first (m :: n) := by
  rw [headerKept_cons plain, flags]
  exact ⟨flagged, recvif, rfl, rfl⟩

theorem headerKept_copied {first m : Mbuf} {n : Chain} (plain : ∀ e ∈ n, e.flags.pkthdr = false)
    (pkthdr : m.flags.pkthdr = true) (bcast : m.flags.bcast = false) (mcast : m.flags.mcast = false) :
    HeaderKept first (m :: n) ↔
      first.flags.Unicast ∧ m.pkthdr.mpRecvif = first.pkthdr.mpRecvif := by
  rw [headerKept_cons plain, pkthdr, bcast, mcast, Flags.Unicast]
  constructor
  · rintro ⟨_, recvif, first, second⟩
    exact ⟨⟨first.symm, second.symm⟩, recvif⟩
  · rintro ⟨⟨first, second⟩, recvif⟩
    exact ⟨rfl, recvif, first.symm, second.symm⟩

theorem dropped_plain {first : Mbuf} {rest : Chain} (plain : ∀ m ∈ rest, m.flags.pkthdr = false) :
    ∀ m ∈ first.dropPkthdr :: rest, m.flags.pkthdr = false := by
  intro m member
  rcases List.mem_cons.mp member with rfl | member
  · rfl
  · exact plain m member

theorem run_headers {limit : Pulling → Nat} {fuel : Nat} {m : Mbuf} {n new : Chain} {Q : Pool}
    {len space : Nat} (plain : ∀ e ∈ n, e.flags.pkthdr = false)
    (call : (match loop (pullPass A limit) fuel ⟨Q, m, n, len, space⟩ with
      | none => none
      | some s => pullEnd A s) = some (new, P')) (some : new ≠ []) :
    ∃ m' n', new = m' :: n' ∧ m'.flags = m.flags ∧ m'.pkthdr = m.pkthdr ∧
      ∀ e ∈ n', e.flags.pkthdr = false := by
  split at call
  · cases call
  · rename_i s left
    obtain ⟨flags, pkthdr, plainS⟩ := pullLoop_headers left plain
    exact ⟨s.m, s.n, pullEnd_headers call some, flags, pkthdr, plainS⟩

theorem bad_empty {Q : Pool} {n new : Chain} (call : bad A Q n = some (new, P')) : new = [] := by
  unfold bad at call
  split at call
  · cases call
  · simp only [Option.some.injEq, Prod.mk.injEq] at call
    exact call.1.symm

/-- The test of `mbuf_pullup` for room behind the data of an internal mbuf, and that of
    `mbuf_pullup_big` for room behind the data in a cluster. -/
def InPlace (first : Mbuf) (len : Nat) : Prop :=
  first.flags.ext = false ∧ wrap (first.data + len) < first.datEnd

def InPlaceBig (first : Mbuf) (len : Nat) : Prop :=
  first.flags.ext = true ∧ wrap (first.data + len) < first.ext.meBuf + mclBytes

theorem copySegment_flags {m n n' : Mbuf} {off len : Nat} {Q : Pool}
    (call : copySegment A P m n off len false = some (n', Q)) : n'.flags.pkthdr = n.flags.pkthdr := by
  rw [copySegment_eq] at call
  split at call
  · split at call
    · cases call
    · split at call
      · cases call
      · simp only [Option.some.injEq, Prod.mk.injEq] at call
        rw [← call.1]
        rfl
  · split at call
    · cases call
    · simp only [Option.some.injEq, Prod.mk.injEq] at call
      rw [← call.1]
      rfl

theorem copySegment_header {m n n' : Mbuf} {off len : Nat} {Q : Pool}
    (call : copySegment A P m n off len true = some (n', Q)) :
    n'.flags.pkthdr = m.flags.pkthdr ∧ n'.flags.bcast = false ∧ n'.flags.mcast = false ∧
      n'.pkthdr.mpRecvif = n.pkthdr.mpRecvif := by
  rw [copySegment_eq] at call
  split at call
  · split at call
    · cases call
    · split at call
      · cases call
      · simp only [Option.some.injEq, Prod.mk.injEq] at call
        rw [← call.1]
        exact ⟨rfl, rfl, rfl, rfl⟩
  · split at call
    · cases call
    · simp only [Option.some.injEq, Prod.mk.injEq] at call
      rw [← call.1]
      exact ⟨rfl, rfl, rfl, rfl⟩

section

variable {first : Mbuf} {rest new : Chain} (flagged : first.flags.pkthdr = true)
  (plain : ∀ m ∈ rest, m.flags.pkthdr = false)

include flagged plain

theorem pullup_header {maxProtohdr fuel len : Nat}
    (call : mbufPullup A maxProtohdr fuel P (first :: rest) len = some (new, P')) (some : new ≠ []) :
    HeaderKept first new ↔ InPlace first len ∨
      (first.flags.Unicast ∧ staleRecvif A P = first.pkthdr.mpRecvif) := by
  simp only [mbufPullup, flagged, if_true] at call
  split at call
  · rename_i place
    obtain ⟨m', n', rfl, flags, pkthdr, plainN⟩ := run_headers plain call some
    have kept := headerKept_same flagged plainN flags (by rw [pkthdr])
    simp only [kept, true_iff]
    exact .inl (by simpa [InPlace] using place)
  · rename_i place
    have away : ¬ InPlace first len := by simpa [InPlace] using place
    split at call
    · exact absurd (bad_empty call) some
    · split at call
      · exact absurd (bad_empty call) some
      · rename_i m Q given
        have fresh := mbufGet_some given
        obtain ⟨m', n', rfl, flags, pkthdr, plainN⟩ := run_headers (dropped_plain plain) call some
        rw [headerKept_copied plainN (by rw [flags]; exact flagged) (by rw [flags]; rfl)
          (by rw [flags]; rfl), pkthdr]
        simp only [away, false_or]
        rw [fresh]
        rfl

theorem pullupBig_header {maxProtohdr fuel len : Nat}
    (call : mbufPullupBig A maxProtohdr fuel P (first :: rest) len = some (new, P')) (some : new ≠ []) :
    HeaderKept first new ↔
      if len ≤ mhlen then
        InPlace first len ∨ (first.flags.Unicast ∧ staleRecvif A P = first.pkthdr.mpRecvif)
      else InPlaceBig first len ∨ first.flags.Unicast := by
  simp only [mbufPullupBig, flagged, if_true] at call
  split at call
  · rename_i short
    rw [if_pos short]
    exact pullup_header flagged plain call some
  · rename_i long
    rw [if_neg long]
    split at call
    · rename_i place
      obtain ⟨m', n', rfl, flags, pkthdr, plainN⟩ := run_headers plain call some
      have kept := headerKept_same flagged plainN flags (by rw [pkthdr])
      simp only [kept, true_iff]
      exact .inl place
    · rename_i place
      have away : ¬ InPlaceBig first len := place
      split at call
      · exact absurd (bad_empty call) some
      · split at call
        · exact absurd (bad_empty call) some
        · split at call
          · cases call
          · split at call
            · split at call
              · cases call
              · exact absurd (bad_empty call) some
            · obtain ⟨m', n', rfl, flags, pkthdr, plainN⟩ := run_headers (dropped_plain plain) call some
              rw [headerKept_copied plainN (by rw [flags]; exact flagged) (by rw [flags]; rfl)
                (by rw [flags]; rfl), pkthdr]
              simp only [away, false_or, and_true]

omit flagged plain in
theorem setMpLen_cons (m : Mbuf) (n : Chain) (f : Nat → Nat) :
    ∃ h, setMpLen (m :: n) f = { m with pkthdr := h } :: n ∧ h.mpRecvif = m.pkthdr.mpRecvif := by
  simp only [setMpLen]
  split
  · exact ⟨_, rfl, rfl⟩
  · exact ⟨m.pkthdr, rfl, rfl⟩

theorem reserve_header {len : Nat}
    (call : mbufReserve A P (first :: rest) len = some (new, P')) (some : new ≠ []) :
    HeaderKept first new ↔ leadingSpace first ≥ len ∨
      (first.flags.Unicast ∧ staleRecvif A P = first.pkthdr.mpRecvif) := by
  simp only [mbufReserve] at call
  split at call
  · rename_i room
    simp only [Option.some.injEq, Prod.mk.injEq] at call
    obtain ⟨h, shape, recvif⟩ := setMpLen_cons
      { first with data := wsub first.data len, len := wrap (first.len + len) } rest
      (fun mpLen => wrap (mpLen + len))
    rw [← call.1, shape]
    have kept : HeaderKept first ({ first with
        data := wsub first.data len, len := wrap (first.len + len), pkthdr := h } :: rest) :=
      headerKept_same flagged plain rfl recvif
    simp only [kept, room, true_or]
  · rename_i room
    simp only [room, false_or]
    split at call
    · exact absurd (bad_empty call) some
    · simp only [reserveFront, flagged, if_true] at call
      split at call
      · cases call
      · rename_i m Q made
        split at made
        · have none := bad_empty made
          subst none
          simp only [setMpLen, Option.some.injEq, Prod.mk.injEq] at call
          exact absurd call.1.symm some
        · rename_i fresh Q' given
          have init := mbufGet_some given
          simp only [Option.some.injEq, Prod.mk.injEq] at made call
          rw [← call.1, ← made.1]
          obtain ⟨h, shape, recvif⟩ := setMpLen_cons
            { (if len < mhlen then
                { copyPkthdr fresh first with
                  data := (copyPkthdr fresh first).data + (mhlen - len) / 4 * 4 }
              else copyPkthdr fresh first) with len := len }
            (first.dropPkthdr :: rest) (fun mpLen => wrap (mpLen + len))
          rw [shape]
          have flags : (if len < mhlen then
              { copyPkthdr fresh first with
                data := (copyPkthdr fresh first).data + (mhlen - len) / 4 * 4 }
            else copyPkthdr fresh first).flags = first.flags.copied := by split <;> rfl
          have stale : (if len < mhlen then
              { copyPkthdr fresh first with
                data := (copyPkthdr fresh first).data + (mhlen - len) / 4 * 4 }
            else copyPkthdr fresh first).pkthdr.mpRecvif = staleRecvif A P := by
            rw [init]
            split <;> rfl
          rw [headerKept_copied (dropped_plain plain) (by simp only [flags]; exact flagged)
            (by simp only [flags]; rfl) (by simp only [flags]; rfl)]
          simp only [recvif, stale]

omit flagged plain in
theorem copyLoop_plain {chain top : Chain} {off len : Nat} (Q : Pool)
    (call : copyLoop A chain off len false top Q = some (new, P')) (some : new ≠ []) :
    ∃ added, new = top ++ added ∧ ∀ m ∈ added, m.flags.pkthdr = false := by
  induction chain generalizing Q off len top with
  | nil =>
    rw [copyLoop] at call
    split at call
    · simp only [Option.some.injEq, Prod.mk.injEq] at call
      exact ⟨[], by rw [List.append_nil]; exact call.1.symm, List.forall_mem_nil _⟩
    · split at call
      · cases call
      · simp only [Option.some.injEq, Prod.mk.injEq] at call
        exact absurd call.1.symm some
  | cons m rest ih =>
    rw [copyLoop] at call
    split at call
    · simp only [Option.some.injEq, Prod.mk.injEq] at call
      exact ⟨[], by rw [List.append_nil]; exact call.1.symm, List.forall_mem_nil _⟩
    · split at call
      · split at call
        · cases call
        · simp only [Option.some.injEq, Prod.mk.injEq] at call
          exact absurd call.1.symm some
      · rename_i n Q' given
        split at call
        · cases call
        · rename_i n' Q'' copied
          obtain ⟨added, rfl, plain⟩ := ih Q'' call
          refine ⟨n' :: added, by rw [List.append_assoc]; rfl, ?_⟩
          intro e member
          rcases List.mem_cons.mp member with rfl | member
          · rw [copySegment_flags copied, mbufGet_some given]
            rfl
          · exact plain e member

omit plain in
theorem copy_first {len : Nat} (call : mbufCopy A P (first :: rest) 0 len = some (new, P'))
    (some : new ≠ []) :
    ∃ n added, new = n :: added ∧ n.flags.pkthdr = true ∧ n.flags.bcast = false ∧ n.flags.mcast = false ∧
      n.pkthdr.mpRecvif = staleRecvif A P ∧ ∀ e ∈ added, e.flags.pkthdr = false := by
  simp only [mbufCopy, flagged, skip, if_true, and_self, decide_true] at call
  rw [copyLoop] at call
  split at call
  · simp only [Option.some.injEq, Prod.mk.injEq] at call
    exact absurd call.1.symm some
  · split at call
    · split at call
      · cases call
      · simp only [Option.some.injEq, Prod.mk.injEq] at call
        exact absurd call.1.symm some
    · rename_i n Q given
      split at call
      · cases call
      · rename_i n' Q' copied
        obtain ⟨added, rfl, plain⟩ := copyLoop_plain Q' call some
        obtain ⟨pkthdr, bcast, mcast, recvif⟩ := copySegment_header copied
        rw [mbufGet_some given] at recvif
        exact ⟨n', added, rfl, pkthdr.trans flagged, bcast, mcast, recvif, plain⟩

omit plain in
theorem copy_header {len : Nat}
    (call : mbufCopy A P (first :: rest) 0 len = some (new, P')) (some : new ≠ []) :
    HeaderKept first new ↔ first.flags.Unicast ∧ staleRecvif A P = first.pkthdr.mpRecvif := by
  obtain ⟨n, added, rfl, pkthdr, bcast, mcast, recvif, plain⟩ := copy_first flagged call some
  rw [headerKept_copied plain pkthdr bcast mcast, recvif]

/-- Exactly when the four operations carry the packet header over: always when the first mbuf
    stays where it is, else when nothing is lost by `M_CPOYFLAGS` and, except in the cluster
    path of `mbuf_pullup_big`, the fresh block happens to hold the right interface. -/
theorem header_survives_iff (some : new ≠ []) :
    (∀ maxProtohdr fuel len,
      mbufPullup A maxProtohdr fuel P (first :: rest) len = Option.some (new, P') →
      (HeaderKept first new ↔ InPlace first len ∨
        (first.flags.Unicast ∧ staleRecvif A P = first.pkthdr.mpRecvif))) ∧
    (∀ maxProtohdr fuel len,
      mbufPullupBig A maxProtohdr fuel P (first :: rest) len = Option.some (new, P') →
      (HeaderKept first new ↔
        if len ≤ mhlen then
          InPlace first len ∨ (first.flags.Unicast ∧ staleRecvif A P = first.pkthdr.mpRecvif)
        else InPlaceBig first len ∨ first.flags.Unicast)) ∧
    (∀ len, mbufReserve A P (first :: rest) len = Option.some (new, P') →
      (HeaderKept first new ↔ leadingSpace first ≥ len ∨
        (first.flags.Unicast ∧ staleRecvif A P = first.pkthdr.mpRecvif))) ∧
    (∀ len, mbufCopy A P (first :: rest) 0 len = Option.some (new, P') →
      (HeaderKept first new ↔
        first.flags.Unicast ∧ staleRecvif A P = first.pkthdr.mpRecvif)) :=
  ⟨fun _ _ _ call => pullup_header flagged plain call some,
    fun _ _ _ call => pullupBig_header flagged plain call some,
    fun _ call => reserve_header flagged plain call some, fun _ call => copy_header flagged call some⟩

end

abbrev pktGet : Option Mbuf × Pool := mbufTake Kmem.board started 2 true

theorem pktGet_reachable : Reachable Kmem.board Within16M pktGet.2 [mbufOf pktGet] :=
  started_reachable.get (get_eq (by decide +kernel))

abbrev received (gap : Nat) : Mbuf :=
  { mbufOf pktGet with
    data := (mbufOf pktGet).data + gap, len := 20, flags := ⟨true, false, false, true, false⟩,
      pkthdr := ⟨20, 0x8b100000⟩ }

abbrev reserved (gap len : Nat) : Chain × Pool :=
  (mbufReserve Kmem.board pktGet.2 [received gap] len).getD ([], pktGet.2)

theorem header_survives_in_place : HeaderKept (received 16) (reserved 16 14).1 := by
  have ended : (mbufReserve Kmem.board pktGet.2 [received 16] 14).isSome = true := by decide +kernel
  have call : mbufReserve Kmem.board pktGet.2 [received 16] 14 =
      some ((reserved 16 14).1, (reserved 16 14).2) :=
    some_getD (d := ([], pktGet.2)) ended
  apply ((@header_survives_iff Kmem.board pktGet.2 (reserved 16 14).2 (received 16) []
    (reserved 16 14).1 rfl nofun
    (by decide +kernel)).2.2.1 14 call).mpr
  exact .inl (by decide +kernel)

/-- Without room a new mbuf is put in front: the packet is no broadcast any more, and came from nowhere. -/
theorem header_lost : ¬ HeaderKept (received 0) (reserved 0 14).1 := by
  rintro ⟨⟨m, isHead, _, recvif, _⟩, _⟩
  have shape : ((reserved 0 14).1.head?.map (·.pkthdr.mpRecvif)) = some 0 := by decide +kernel
  rw [Option.mem_def.mp isHead, Option.map_some, recvif] at shape
  exact absurd shape (by decide)

end Embryo.Uipc
