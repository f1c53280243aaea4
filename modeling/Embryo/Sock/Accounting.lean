import Embryo.Sock.Receive
import Embryo.Uipc.Clusters
import Embryo.Uipc.Write

namespace Embryo.Sock

open Embryo.Machine Embryo.Uipc
open Embryo.Kmem (Arena)

def Ptr.all (p : Ptr) : List Mbuf := p.records.flatten

def weight (l : List Mbuf) : Nat := (l.map storage).sum

@[simp] theorem weight_cons (m : Mbuf) (l : List Mbuf) : weight (m :: l) = storage m + weight l := by
  simp [weight]

@[simp] theorem weight_append (l l' : List Mbuf) : weight (l ++ l') = weight l + weight l' := by
  simp [weight]

section

variable (p q : Ptr)

@[simp] theorem Ptr.chain_setNextpkt : (p.setNextpkt q).chain = p.chain := by
  cases p <;> rfl

@[simp] theorem Ptr.chain_linkBehind : (p.linkBehind q).chain = p.chain ++ q.chain := by
  induction p with
  | null => rfl
  | mbuf m next nextpkt ih _ => rw [linkBehind, chain, ih, chain, List.cons_append]

@[simp] theorem Ptr.records_queueBehind : (p.queueBehind q).records = p.records ++ q.records := by
  induction p with
  | null => rfl
  | mbuf m next nextpkt _ ih => rw [queueBehind, records, ih, records, List.cons_append]

@[simp] theorem Ptr.all_queueBehind : (p.queueBehind q).all = p.all ++ q.all := by
  rw [all, records_queueBehind, List.flatten_append, all, all]

@[simp] theorem Ptr.all_mbuf (m : Mbuf) : (mbuf m p q).all = m :: (p.chain ++ q.all) := by
  rw [all, records, List.flatten_cons, List.cons_append, all]

end

structure Sockbuf.Counts (sb : Sockbuf) (l : List Mbuf) : Prop where
  cc : sb.cc = wrap (total l)
  mbcnt : sb.mbcnt = wrap (weight l)

variable {A : Arena} {P P' : Pool} {sb sb' sb'' : Sockbuf} {l l' l'' : List Mbuf} {m : Mbuf}

theorem Sockbuf.Counts.alloc (counts : sb.Counts l) (m : Mbuf) : (sballoc sb m).Counts (l ++ [m]) := by
  constructor
  · show wrap (sb.cc + m.len) = _
    rw [counts.cc, wrap_add, total_append, total_cons]
    rfl
  · show wrap (sb.mbcnt + storage m) = _
    rw [counts.mbcnt, wrap_add, weight_append, weight_cons]
    rfl

theorem Sockbuf.Counts.alloc_chain (counts : sb.Counts l) (c : Chain) :
    (c.foldl sballoc sb).Counts (l ++ c) := by
  induction c generalizing sb l with
  | nil => rwa [List.foldl_nil, List.append_nil]
  | cons m c ih =>
    have next := ih (counts.alloc m)
    rwa [List.append_assoc] at next

theorem Sockbuf.Counts.free (counts : sb.Counts (m :: l)) : (sbfree sb m).Counts l := by
  constructor
  · show wsub sb.cc (wrap m.len) = _
    rw [counts.cc, total_cons, wsub_wrap_add]
  · show wsub sb.mbcnt (wrap (storage m)) = _
    rw [counts.mbcnt, weight_cons, wsub_wrap_add]

theorem foldl_sballoc_fixed (c : Chain) (sb : Sockbuf) :
    (c.foldl sballoc sb).mb = sb.mb ∧ (c.foldl sballoc sb).hiwat = sb.hiwat ∧
      (c.foldl sballoc sb).mbmax = sb.mbmax := by
  induction c generalizing sb with
  | nil => exact ⟨rfl, rfl, rfl⟩
  | cons m c ih => exact ih (sballoc sb m)

/-- From a buffer with the mbufs `l` to one with `l'`: the counters follow, and nothing grows. -/
structure Drained (sb : Sockbuf) (l : List Mbuf) (sb' : Sockbuf) (l' : List Mbuf) : Prop where
  counts : sb.Counts l → sb'.Counts l'
  total_le : total l' ≤ total l
  weight_le : weight l' ≤ weight l
  hiwat : sb'.hiwat = sb.hiwat
  mbmax : sb'.mbmax = sb.mbmax

theorem Drained.trans (first : Drained sb l sb' l') (second : Drained sb' l' sb'' l'') :
    Drained sb l sb'' l'' where
  counts := fun counts => second.counts (first.counts counts)
  total_le := Nat.le_trans second.total_le first.total_le
  weight_le := Nat.le_trans second.weight_le first.weight_le
  hiwat := second.hiwat.trans first.hiwat
  mbmax := second.mbmax.trans first.mbmax

theorem Drained.relink (sb : Sockbuf) (l : List Mbuf) (mb : Ptr) : Drained sb l { sb with mb := mb } l :=
  ⟨fun counts => ⟨counts.cc, counts.mbcnt⟩, Nat.le_refl _, Nat.le_refl _, rfl, rfl⟩

theorem Drained.sbfree (sb : Sockbuf) (m : Mbuf) (l : List Mbuf) : Drained sb (m :: l) (sbfree sb m) l where
  counts := Sockbuf.Counts.free
  total_le := by rw [total_cons]; omega
  weight_le := by rw [weight_cons]; omega
  hiwat := rfl
  mbmax := rfl

theorem Drained.dropChain {c : Chain} {l : List Mbuf} (dropped : dropChain A c P sb = some (P', sb')) :
    Drained sb (c ++ l) sb' l ∧ sb'.mb = sb.mb := by
  induction c generalizing P sb with
  | nil =>
    cases dropped
    exact ⟨Drained.relink _ l _, rfl⟩
  | cons m c ih =>
    simp only [Sock.dropChain] at dropped
    cases freed : mbufFree A P m with
    | none => rw [freed] at dropped; cases dropped
    | some P₁ =>
      rw [freed] at dropped
      obtain ⟨rest, same⟩ := ih dropped
      exact ⟨(Drained.sbfree sb m (c ++ l)).trans rest, same⟩

theorem Drained.droprecord (dropped : sbdroprecord A P sb = some (P', sb')) :
    Drained sb sb.mb.all sb' sb'.mb.all := by
  unfold sbdroprecord at dropped
  split at dropped
  · cases dropped
    exact Drained.relink sb _ sb.mb
  · rename_i m next nextpkt first
    obtain ⟨drained, same⟩ := Drained.dropChain (l := nextpkt.all) dropped
    rw [first, same, Ptr.all_mbuf]
    exact (Drained.relink sb _ nextpkt).trans drained

theorem Drained.unlink {next : Ptr} {wanted : Bool} {new : Chain} (l : List Mbuf)
    (unlinked : unlink A P sb m next wanted = some (new, P', sb')) :
    Drained sb (m :: l) sb' l ∧ sb'.mb = next := by
  have drained := (Drained.sbfree sb m l).trans (Drained.relink (Sock.sbfree sb m) l next)
  unfold Sock.unlink at unlinked
  split at unlinked
  · cases unlinked
    exact ⟨drained, rfl⟩
  · cases freed : mbufFree A P m with
    | none => rw [freed] at unlinked; cases unlinked
    | some P₁ =>
      rw [freed] at unlinked
      cases unlinked
      exact ⟨drained, rfl⟩

/-- Without `MSG_PEEK` the buffer, `m` and `nextpkt` together still are what is left. -/
structure Open (sb : Sockbuf) (l : List Mbuf) (s : Receiving) : Prop where
  drained : Drained sb l s.so.rcvsb (s.m.chain ++ s.nextpkt.all)
  first : s.so.rcvsb.mb = s.m
  link : s.m.setNextpkt s.nextpkt = s.m
  moff : s.moff = 0

/-- What the loop over the data keeps: with `MSG_PEEK`, the buffer as it was. -/
def Handled (peek : Bool) (sb : Sockbuf) (l : List Mbuf) (s : Receiving) : Prop :=
  s.flags.peek = peek ∧ if peek then s.so.rcvsb = sb else Open sb l s

section

variable {s s' : Receiving} {mp0 peek : Bool} {next nextpkt : Ptr} {len : Nat}

theorem Open.at_mbuf (held : Open sb l s) (first : s.m = .mbuf m next nextpkt) :
    s.nextpkt = nextpkt ∧ Drained sb l s.so.rcvsb (m :: (next.chain ++ nextpkt.all)) := by
  have link := held.link
  rw [first, Ptr.setNextpkt] at link
  injection link with _ _ same
  have drained := held.drained
  rw [first, same] at drained
  exact ⟨same, drained⟩

theorem Open.whole (held : Open sb l s) (first : s.m = .mbuf m next nextpkt) (plain : s.flags.peek = false)
    (passed : passWhole A mp0 s m next nextpkt = some s') : Open sb l s' := by
  obtain ⟨_, drained⟩ := held.at_mbuf first
  simp only [passWhole, plain, Bool.false_eq_true, if_false] at passed
  cases unlinked : unlink A s.pool s.so.rcvsb m next mp0 with
  | none => rw [unlinked] at passed; cases passed
  | some taken =>
    obtain ⟨new, P₁, sb₁⟩ := taken
    rw [unlinked] at passed
    cases passed
    have gone := (Drained.unlink (next.chain ++ nextpkt.all) unlinked).1
    constructor
    · simp only [Ptr.chain_setNextpkt]
      exact (drained.trans gone).trans (Drained.relink sb₁ _ _)
    · rfl
    · cases next <;> rfl
    · exact held.moff

theorem Open.part (held : Open sb l s) (first : s.m = .mbuf m next nextpkt) (plain : s.flags.peek = false)
    (bound : len ≤ m.len) (_ : len < 2^32)
    (passed : passPart A mp0 s m next nextpkt len = some s') : Open sb l s' := by
  obtain ⟨same, drained⟩ := held.at_mbuf first
  simp only [passPart, plain, Bool.false_eq_true, if_false] at passed
  split at passed
  · cases passed
  · cases passed
    constructor
    · apply drained.trans
      rw [same]
      constructor
      · intro counts
        constructor
        · show wsub s.so.rcvsb.cc len = wrap (total (_ :: (next.chain ++ nextpkt.all)))
          rw [counts.cc, total_cons, total_cons]
          simp only [wsub, wrap]
          omega
        · exact counts.mbcnt
      · have shorter := wsub_le bound
        simp only [Ptr.chain, List.cons_append, total_cons]
        omega
      · exact Nat.le_refl _
      · rfl
      · rfl
    · rfl
    · rw [same]
      rfl
    · exact held.moff

def carried : Pass Receiving Receiving → Receiving
  | .again s => s
  | .leave s => s

theorem passEnd_carried (s : Receiving) (len : Nat) :
    ∃ oobmark rcvatmark offset, carried (passEnd s len) = { s with
      so := { s.so with oobmark := oobmark, rcvatmark := rcvatmark }
      offset := offset } := by
  unfold passEnd
  dsimp only
  split
  · split
    · split <;> exact ⟨_, _, _, rfl⟩
    · split
      · exact ⟨_, _, _, rfl⟩
      · split <;> exact ⟨_, _, _, rfl⟩
  · split <;> exact ⟨_, _, _, rfl⟩

theorem passMove_eq (mp0 : Bool) (s : Receiving) (m : Mbuf) (len : Nat) :
    ∃ uio uioErr, passMove mp0 s m len = { s with
      so := { s.so with rcvatmark := false }, uio := uio, uioErr := uioErr } := by
  unfold passMove
  dsimp only
  split <;> exact ⟨_, _, rfl⟩

theorem receivePass_cases {type : Nat} {pass : Pass Receiving Receiving}
    (passed : receivePass A mp0 type s = some pass) :
    pass = .leave s ∨ ∃ m next nextpkt s', s.m = .mbuf m next nextpkt ∧
      passTake A mp0 (passMove mp0 s m (passLen s m)) m next nextpkt (passLen s m) = some s' ∧
      pass = passEnd s' (passLen s m) := by
  unfold receivePass at passed
  split at passed
  · left
    exact (Option.some.inj passed).symm
  · rename_i m next nextpkt first
    split at passed
    · left
      exact (Option.some.inj passed).symm
    · split at passed
      · left
        exact (Option.some.inj passed).symm
      · right
        dsimp only at passed
        split at passed
        · cases passed
        · rename_i s' taken
          exact ⟨m, next, nextpkt, s', first, taken, (Option.some.inj passed).symm⟩

theorem passLen_le (s : Receiving) (m : Mbuf) : passLen s m ≤ wsub m.len s.moff := Nat.min_le_right _ _

theorem Open.take (held : Open sb l s) (first : s.m = .mbuf m next nextpkt) (plain : s.flags.peek = false)
    (bound : len ≤ wsub m.len s.moff)
    (taken : passTake A mp0 s m next nextpkt len = some s') : Open sb l s' := by
  have small : len < 2^32 := Nat.lt_of_le_of_lt bound (wrap_lt _)
  rw [held.moff] at bound
  unfold passTake at taken
  split at taken
  · exact held.whole first plain taken
  · exact held.part first plain (Nat.le_trans bound (wsub_le (Nat.zero_le _))) small taken

theorem passTake_peek (peeked : s.flags.peek = true)
    (taken : passTake A mp0 s m next nextpkt len = some s') :
    s'.so = s.so ∧ s'.flags.peek = true := by
  unfold passTake at taken
  split at taken
  · simp only [passWhole, peeked, if_true] at taken
    cases taken
    exact ⟨rfl, rfl⟩
  · simp only [passPart, peeked, if_true] at taken
    cases taken
    exact ⟨rfl, peeked⟩

theorem passTake_plain (plain : s.flags.peek = false)
    (taken : passTake A mp0 s m next nextpkt len = some s') : s'.flags.peek = false := by
  unfold passTake at taken
  split at taken
  · simp only [passWhole, plain, Bool.false_eq_true, if_false] at taken
    split at taken
    · cases taken
    · cases taken
      rfl
  · simp only [passPart, plain, Bool.false_eq_true, if_false] at taken
    split at taken
    · cases taken
    · cases taken
      exact plain

theorem Handled.pass {type : Nat} {pass : Pass Receiving Receiving} (handled : Handled peek sb l s)
    (passed : receivePass A mp0 type s = some pass) : Handled peek sb l (carried pass) := by
  rcases receivePass_cases passed with rfl | ⟨m, next, nextpkt, s', first, taken, rfl⟩
  · exact handled
  · obtain ⟨flag, held⟩ := handled
    obtain ⟨uio, uioErr, moved⟩ := passMove_eq mp0 s m (passLen s m)
    obtain ⟨oobmark, rcvatmark, offset, same⟩ := passEnd_carried s' (passLen s m)
    rw [moved] at taken
    rw [same]
    cases peek with
    | true =>
      obtain ⟨kept, flag'⟩ := passTake_peek (by exact flag) taken
      refine ⟨flag', ?_⟩
      show s'.so.rcvsb = sb
      rw [kept]
      exact held
    | false =>
      have flag' : s'.flags.peek = false := passTake_plain (by exact flag) taken
      refine ⟨flag', ?_⟩
      have opened : Open sb l s' := by
        apply Open.take _ (by exact first) (by exact flag) (by exact passLen_le s m) taken
        exact ⟨held.drained, held.first, held.link, held.moff⟩
      exact ⟨opened.drained, opened.first, opened.link, opened.moff⟩

theorem Handled.loop {type fuel : Nat} (handled : Handled peek sb l s)
    (looped : loop (receivePass A mp0 type) fuel s = some s') : Handled peek sb l s' :=
  loop_invariant (Handled peek sb l) (Handled peek sb l)
    (fun _ _ passed handled => handled.pass passed) (fun _ _ passed handled => handled.pass passed)
    looped handled

theorem Drained.receiveEnd {req : Request} {addr control : Chain} {r : Received}
    (handled : Handled peek sb sb.mb.all s)
    (ended : receiveEnd A req addr control s = some (.returns r)) :
    Drained sb sb.mb.all r.so.rcvsb r.so.rcvsb.mb.all := by
  obtain ⟨flag, held⟩ := handled
  unfold Sock.receiveEnd at ended
  cases peek with
  | true =>
    simp only [if_true] at held
    simp only [flag, if_true] at ended
    split at ended
    all_goals
      cases ended
      show Drained sb sb.mb.all s.so.rcvsb s.so.rcvsb.mb.all
      rw [held]
      exact Drained.relink sb _ sb.mb
  | false =>
    simp only [Bool.false_eq_true, if_false] at held
    simp only [flag, Bool.false_eq_true, if_false] at ended
    have drained := held.drained
    split at ended
    · rename_i none
      cases ended
      rw [none] at drained
      exact drained.trans (Drained.relink s.so.rcvsb _ s.nextpkt)
    · rename_i m next nextpkt first
      obtain ⟨_, drained⟩ := held.at_mbuf first
      rw [← Ptr.all_mbuf, ← first, ← held.first] at drained
      split at ended
      · cases ended
      · rename_i P₁ sb₁ dropped
        cases ended
        exact drained.trans (Drained.droprecord dropped)

theorem takeFirst_peek {wanted : Bool} {new : Chain}
    (taken : takeFirst A P sb m next wanted true = some (new, P', sb')) : sb' = sb := by
  simp only [takeFirst, if_true] at taken
  split at taken
  · split at taken
    · cases taken
    · cases taken
      rfl
  · cases taken
    rfl

theorem takeControl_peek {wanted : Bool} {p p' : Ptr} {hook hook' : Hook}
    (taken : takeControl A wanted true p P sb hook = some (p', P', sb', hook')) : sb' = sb := by
  induction p generalizing P sb hook with
  | null =>
    cases taken
    rfl
  | mbuf m next nextpkt ih _ =>
    unfold takeControl at taken
    split at taken
    · cases taken
      rfl
    · split at taken
      · cases taken
      · rename_i new P₁ sb₁ first
        rw [ih taken, takeFirst_peek first]

theorem Drained.takeControl {wanted : Bool} {p p' : Ptr} {hook hook' : Hook}
    (taken : takeControl A wanted false p P sb hook = some (p', P', sb', hook')) (l : List Mbuf) :
    Drained sb (p.chain ++ l) sb' (p'.chain ++ l) := by
  induction p generalizing P sb hook with
  | null =>
    cases taken
    exact Drained.relink _ _ _
  | mbuf m next nextpkt ih _ =>
    unfold Sock.takeControl at taken
    split at taken
    · cases taken
      exact Drained.relink _ _ _
    · split at taken
      · cases taken
      · rename_i new P₁ sb₁ first
        exact (Drained.unlink (next.chain ++ l) first).1.trans (ih taken)

theorem about_kept (flags : MsgFlags) (p : Ptr) :
    (flags.about p).peek = flags.peek ∧ (flags.about p).eor = flags.eor := by
  unfold MsgFlags.about
  split
  · exact ⟨rfl, rfl⟩
  · split
    · exact ⟨rfl, rfl⟩
    · split
      · exact ⟨rfl, rfl⟩
      · split <;> exact ⟨rfl, rfl⟩

theorem Drained.receiveRecord {fuel : Nat} {so : Socket} {req : Request} {flags : MsgFlags} {r : Received}
    (first : so.rcvsb.mb = .mbuf m next nextpkt)
    (returned : receiveRecord A fuel P so req flags m next nextpkt = some (.returns r)) :
    Drained so.rcvsb so.rcvsb.mb.all r.so.rcvsb r.so.rcvsb.mb.all := by
  unfold Sock.receiveRecord at returned
  split at returned
  · cases returned
  · rename_i addr P₁ sb₁ taken
    split at returned
    · cases returned
    · rename_i p P₂ sb₂ hook controls
      dsimp only at returned
      split at returned
      · cases returned
      · rename_i s looped
        have start : Handled flags.peek so.rcvsb so.rcvsb.mb.all
            (receiveStart P₂ so sb₂ req.uio flags p nextpkt) := by
          refine ⟨(about_kept flags p).1, ?_⟩
          unfold receiveStart
          cases peeked : flags.peek with
          | true =>
            rw [peeked] at taken controls
            simp only [if_true]
            show sb₂ = _
            rw [takeControl_peek controls, takeFirst_peek taken]
          | false =>
            rw [peeked] at taken controls
            simp only [Bool.false_eq_true, if_false]
            have gone := (Drained.unlink (next.chain ++ nextpkt.all) taken).1
            constructor
            · rw [first, Ptr.all_mbuf, Ptr.chain_setNextpkt]
              exact (gone.trans (Drained.takeControl controls _)).trans (Drained.relink sb₂ _ _)
            · rfl
            · cases p <;> rfl
            · rfl
        exact Drained.receiveEnd (start.loop looped) returned

end

theorem Drained.soreceive {fuel : Nat} {so : Socket} {req : Request} {r : Received}
    (returned : soreceive A fuel P so req = some (.returns r)) :
    Drained so.rcvsb so.rcvsb.mb.all r.so.rcvsb r.so.rcvsb.mb.all := by
  have same : Drained so.rcvsb so.rcvsb.mb.all so.rcvsb so.rcvsb.mb.all := Drained.relink _ _ _
  have sleeping : ∀ {flags}, sleepOrLeave P so req flags = .returns r → r.so = so := by
    intro flags slept
    unfold sleepOrLeave at slept
    split at slept
    · cases slept
      rfl
    · split at slept
      · cases slept
        rfl
      · cases slept
  unfold Sock.soreceive at returned
  dsimp only at returned
  split at returned
  · cases returned
  · split at returned
    · cases returned
    · split at returned
      · split at returned
        · cases returned
          show Drained _ _ (Socket.rcvsb (if _ then _ else _)) (Socket.rcvsb (if _ then _ else _)).mb.all
          split <;> exact same
        · split at returned
          · cases returned
            exact same
          · rw [sleeping (Option.some.inj returned)]
            exact same
      · rename_i m next nextpkt first
        split at returned
        · rw [sleeping (Option.some.inj returned)]
          exact same
        · exact Drained.receiveRecord first returned

def Sockbuf.queue (sb : Sockbuf) (record : Ptr) : Sockbuf :=
  { record.chain.foldl sballoc sb with mb := sb.mb.queueBehind record }

theorem sbappendaddr_cases {addr : Nat} {data control : Ptr} {code : Bool}
    (call : sbappendaddr A P sb addr data control = some (code, P', sb')) :
    (code = false ∧ sb' = sb) ∨
      ∃ m P₁, code = true ∧ lacksPkthdr data.chain = false ∧
        recordSpace (P.mem addr).toNat data.chain control.chain ≤ sbspace sb ∧
        (P.mem addr).toNat ≤ mlen ∧ mbufGet A P mtSoname = (some m, P₁) ∧
        P₁.fill { m with len := (P.mem addr).toNat } addr m.data (P.mem addr).toNat = some P' ∧
        sb' = sb.queue (.mbuf { m with len := (P.mem addr).toNat } (control.linkBehind data) .null) := by
  unfold sbappendaddr at call
  dsimp only at call
  split at call
  · cases call
    exact .inl ⟨rfl, rfl⟩
  · rename_i headed
    split at call
    · cases call
      exact .inl ⟨rfl, rfl⟩
    · rename_i space
      split at call
      · cases call
        exact .inl ⟨rfl, rfl⟩
      · rename_i short
        split at call
        · cases call
          exact .inl ⟨rfl, rfl⟩
        · rename_i m P₁ got
          split at call
          · cases call
          · rename_i P₂ filled
            cases call
            refine .inr ⟨m, P₁, rfl, by simpa using headed, by omega, by omega, got, filled, ?_⟩
            rw [Sockbuf.queue, (foldl_sballoc_fixed _ _).1]

theorem Sockbuf.Counts.queue (counts : sb.Counts sb.mb.all) (m : Mbuf) (next : Ptr) :
    (sb.queue (.mbuf m next .null)).Counts (sb.queue (.mbuf m next .null)).mb.all := by
  have grown := counts.alloc_chain (Ptr.mbuf m next .null).chain
  have same : (sb.queue (.mbuf m next .null)).mb.all = sb.mb.all ++ (Ptr.mbuf m next .null).chain := by
    show (sb.mb.queueBehind _).all = _
    rw [Ptr.all_queueBehind, Ptr.all_mbuf]
    exact congrArg (sb.mb.all ++ m :: ·) (List.append_nil _)
  rw [same]
  exact ⟨grown.cc, grown.mbcnt⟩

/-- A call on the receive buffer of a socket, with the pool as it is by then, or something that
    happens to the rest of the socket. -/
inductive Called (A : Arena) : Socket → Socket → Prop where
  | append {so : Socket} {P P' : Pool} {addr : Nat} {data control : Ptr} {code : Bool} {sb : Sockbuf}
      (call : sbappendaddr A P so.rcvsb addr data control = some (code, P', sb)) :
      Called A so (so.setRcvsb sb)
  | receive {so : Socket} {fuel : Nat} {P : Pool} {req : Request} {r : Received}
      (call : soreceive A fuel P so req = some (.returns r)) : Called A so r.so
  | droprecord {so : Socket} {P P' : Pool} {sb : Sockbuf}
      (call : sbdroprecord A P so.rcvsb = some (P', sb)) : Called A so (so.setRcvsb sb)
  | other {so so' : Socket} (same : so'.rcvsb = so.rcvsb) : Called A so so'

theorem Called.counts {so so' : Socket} (called : Called A so so')
    (counts : so.rcvsb.Counts so.rcvsb.mb.all) : so'.rcvsb.Counts so'.rcvsb.mb.all := by
  cases called with
  | append call =>
    rcases sbappendaddr_cases call with ⟨_, rfl⟩ | ⟨m, P₁, _, _, _, _, _, _, rfl⟩
    · exact counts
    · exact counts.queue _ _
  | receive call => exact (Drained.soreceive call).counts counts
  | droprecord call => exact (Drained.droprecord call).counts counts
  | other same =>
    rw [same]
    exact counts

/-- After any calls on an empty receive buffer, the counters are the sums over all its records. -/
theorem receive_buffer_accounted {so so' : Socket} (empty : so.rcvsb.mb = .null)
    (cc : so.rcvsb.cc = 0) (mbcnt : so.rcvsb.mbcnt = 0) (run : Relation.ReflTransGen (Called A) so so') :
    so'.rcvsb.cc = wrap (so'.rcvsb.mb.records.flatten.map Mbuf.len).sum ∧
      so'.rcvsb.mbcnt = wrap (so'.rcvsb.mb.records.flatten.map storage).sum := by
  have counts : so'.rcvsb.Counts so'.rcvsb.mb.all := by
    induction run with
    | refl =>
      rw [empty]
      exact ⟨cc, mbcnt⟩
    | tail _ called ih => exact called.counts ih
  exact ⟨counts.cc, counts.mbcnt⟩

abbrev arrived : Option Mbuf × Pool := mbufTake Kmem.board started 2 true
abbrev packet : Ptr := .mbuf { mbufOf arrived with len := 5, pkthdr := ⟨5, 0⟩ } .null .null
abbrev named : Pool := { arrived.2 with mem := Function.update arrived.2.mem 0x1000 16 }
abbrev unused : Sockbuf := ⟨0, 0, 0, 0, 0, .null⟩
abbrev attached : Socket := ⟨false, false, false, false, 0, 0, (soreserve unused unused 9216 41600).2.2⟩
abbrev queued : Bool × Pool × Sockbuf :=
  (sbappendaddr Kmem.board named attached.rcvsb 0x1000 packet .null).getD (false, named, unused)
abbrev waiting : Socket := attached.setRcvsb queued.2.2
abbrev noMsgFlags : MsgFlags := ⟨false, false, false, false, false, false, false, false⟩
abbrev peekThree : Request := ⟨true, false, false, { noMsgFlags with peek := true }, ⟨[3], 3, []⟩⟩

def receivedOf (call : Option Outcome) : Received :=
  match call with
  | some (.returns r) => r
  | _ => ⟨bootPool, attached, 0, [], [], [], ⟨[], 0, []⟩, noMsgFlags⟩

def returned (call : Option Outcome) : Bool :=
  match call with
  | some (.returns _) => true
  | _ => false

theorem returned_eq {call : Option Outcome} (ended : returned call = true) :
    call = some (.returns (receivedOf call)) := by
  unfold returned at ended
  split at ended
  · rfl
  · cases ended

abbrev peeked : Received := receivedOf (soreceive Kmem.board 2 queued.2.1 waiting peekThree)

theorem queued_eq :
    sbappendaddr Kmem.board named attached.rcvsb 0x1000 packet .null =
      some (queued.1, queued.2.1, queued.2.2) :=
  some_getD (d := (false, named, unused)) (by decide +kernel)

theorem peeked_buffer_accounted :
    peeked.so.rcvsb.cc = wrap (peeked.so.rcvsb.mb.records.flatten.map Mbuf.len).sum ∧
      peeked.so.rcvsb.mbcnt = wrap (peeked.so.rcvsb.mb.records.flatten.map storage).sum := by
  have first : Called Kmem.board attached waiting := .append queued_eq
  have second : Called Kmem.board waiting peeked.so := .receive (returned_eq (by decide +kernel))
  exact receive_buffer_accounted rfl rfl rfl (.tail (.tail .refl first) second)

example : peeked.so.rcvsb.cc = 21 ∧ peeked.so.rcvsb.mbcnt = 256 := by decide +kernel

end Embryo.Sock
