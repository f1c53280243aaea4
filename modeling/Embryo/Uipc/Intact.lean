import Embryo.Uipc.Reserve
import Embryo.Uipc.Sharing
import Embryo.Uipc.Trim

namespace Embryo.Uipc

open Embryo.Machine
open Embryo.Kmem (Arena kmemMalloc)

/-- A packet in use: its data lie in its buffers, and its first mbuf alone has a header, with the length. -/
structure Intact (A : Arena) (P : Pool) (others : List Mbuf) (first : Mbuf) (rest : Chain) : Prop where
  wf : Wf A P (first :: rest ++ others)
  fits : ∀ e ∈ first :: rest, e.Fit
  flagged : first.flags.pkthdr = true
  plain : ∀ e ∈ rest, e.flags.pkthdr = false
  mpLen : first.pkthdr.mpLen = total (first :: rest)

def SparedAll (P P' : Pool) (others : List Mbuf) : Prop :=
  ∀ e ∈ others, e.Fit → bytes P'.mem e.data e.len = bytes P.mem e.data e.len

variable {A : Arena} {P P' : Pool} {others : List Mbuf} {first : Mbuf} {rest new : Chain} {s t : Pulling}
  {limit : Pulling → Nat} {len fuel : Nat}

theorem SparedAll.refl (P : Pool) (others : List Mbuf) : SparedAll P P others := fun _ _ _ => rfl

theorem SparedAll.trans {P'' : Pool} (first : SparedAll P P' others) (second : SparedAll P' P'' others) :
    SparedAll P P'' others := fun e member fit => (second e member fit).trans (first e member fit)

structure Advanced (A : Arena) (others : List Mbuf) (limit : Pulling → Nat) (s t : Pulling) : Prop where
  going : Going A others limit t
  kept : Kept limit s t
  plain : t.m.flags.ext = false
  spared : SparedAll s.pool t.pool others

theorem Advanced.pass (steady : Steady limit) (advanced : Advanced A others limit s t) {t' : Pulling}
    (passed : pullPass A limit t = some (.again t')) : Advanced A others limit s t' := by
  obtain ⟨going, kept, plain, spared⟩ := advanced
  cases nodes : t.n with
  | nil =>
    simp only [pullPass, nodes] at passed
    cases passed
  | cons first rest =>
    by_cases done : t.len = 0
    · simp only [pullPass, nodes, done, if_true] at passed
      cases passed
    · obtain ⟨t'', step, pulled, going', next, shorter⟩ := going.pass steady nodes done
      rw [step] at passed
      simp only [Option.some.injEq, Pass.again.injEq] at passed
      subst passed
      refine ⟨going', kept.pass steady going' nodes pulled next shorter, by rw [pulled.m]; exact plain, ?_⟩
      intro e member fit
      rw [← spared e member fit]
      apply pulled.others_kept member fit
      have wf := going.moving.wf
      have apart := wf.rooms_apart plain (List.mem_append_right t.n member)
      have start := going.moving.fit.1
      have room := going.moving.room
      rw [nodes, total_cons] at room
      have inside : Region.Within ⟨t.m.tail, min (limit t) first.len⟩ t.m.room := by
        simp only [Region.Within, Region.stop, Mbuf.tail] at *
        omega
      have own : Region.Within e.extent e.room := fit
      exact apart.clear.mono own inside

theorem Advanced.looped (steady : Steady limit) (going : Going A others limit s)
    (plain : s.m.flags.ext = false)
    (ahead : Ahead s.m.tail (limit s) s.n) (left : loop (pullPass A limit) fuel s = some t) :
    Advanced A others limit s t := by
  have start : Kept limit s s := ⟨rfl, ahead, rfl, ⟨[], rfl, List.Perm.refl _⟩, rfl⟩
  apply loop_invariant (Advanced A others limit s) (Advanced A others limit s)
    _ _ left ⟨going, start, plain, .refl _ _⟩
  · intro t t' passed advanced
    exact advanced.pass steady passed
  · intro t result passed advanced
    unfold pullPass at passed
    split at passed
    · simp only [Option.some.injEq, Pass.leave.injEq] at passed
      exact passed ▸ advanced
    · split at passed
      · simp only [Option.some.injEq, Pass.leave.injEq] at passed
        exact passed ▸ advanced
      · split at passed <;> cases passed

def Own (first : Mbuf) (rest : Chain) : Prop := ∀ e ∈ rest, Region.Clear e.extent first.extent

/-- What a pullup that keeps the packet leaves; the packet is as it was, or has an internal first mbuf. -/
structure Joined (A : Arena) (P P' : Pool) (others : List Mbuf) (chain : Chain) (len : Nat)
    (first : Mbuf) (rest : Chain) : Prop where
  intact : Intact A P' others first rest
  data : flatten P'.mem (first :: rest) = flatten P.mem chain
  long : len ≤ first.len
  spared : SparedAll P P' others
  place : chain = first :: rest ∨ first.flags.ext = false

theorem Joined.total {chain : Chain} (joined : Joined A P P' others chain len first rest) :
    total (first :: rest) = total chain := by
  rw [← flatten_length P'.mem, joined.data, flatten_length]

theorem Joined.trans {P'' : Pool} {first' : Mbuf} {rest' chain : Chain} {len' : Nat}
    (before : Joined A P P' others chain len first rest)
    (after : Joined A P' P'' others (first :: rest) len' first' rest') :
    Joined A P P'' others chain len' first' rest' := by
  refine ⟨after.intact, after.data.trans before.data, after.long, before.spared.trans after.spared, ?_⟩
  rcases after.place with same | internal
  · obtain ⟨rfl, rfl⟩ := List.cons.inj same
    exact before.place
  · exact .inr internal

theorem Intact.own (intact : Intact A P others first rest) (internal : first.flags.ext = false) :
    Own first rest := by
  intro e member
  have apart := intact.wf.rooms_apart internal (List.mem_append_left _ member)
  have fit : Region.Within e.extent e.room := intact.fits e (List.mem_cons_of_mem _ member)
  have own : Region.Within first.extent first.room := intact.fits first List.mem_cons_self
  exact apart.clear.mono fit own

theorem Joined.own {first' : Mbuf} {rest' : Chain}
    (joined : Joined A P P' others (first :: rest) len first' rest')
    (own : Own first rest) : Own first' rest' := by
  rcases joined.place with same | internal
  · obtain ⟨rfl, rfl⟩ := List.cons.inj same
    exact own
  · exact joined.intact.own internal

theorem Intact.write {mem : Memory} {k : Nat} (intact : Intact A P others first rest) (bound : k ≤ first.len)
    (same : SameBut first.data k P.mem mem) : Intact A { P with mem } others first rest := by
  have fit := intact.fits first List.mem_cons_self
  have window : Windowed first k := ⟨fit.1, Nat.le_trans (Nat.add_le_add_left bound _) fit.2⟩
  exact { intact with wf := intact.wf.write_window window same }

section

variable {m : Mbuf} {n : Chain} (wf : Wf A P (m :: (n ++ others))) (internal : m.flags.ext = false)
  (fit : m.Fit)
  (fits : ∀ e ∈ n, e.Fit) (flagged : m.flags.pkthdr = true) (plain : ∀ e ∈ n, e.flags.pkthdr = false)
  (mpLen : m.pkthdr.mpLen = total (m :: n)) (small : len < 2^32)

include wf internal fit fits flagged plain mpLen small

theorem pullupRun_joined (run : pullupRun A 0 fuel P m n len = some (new, P')) (some : new ≠ []) :
    ∃ first rest, new = first :: rest ∧ Joined A P P' others (m :: n) (m.len + len) first rest ∧
      first.flags = m.flags ∧ first.pkthdr = m.pkthdr := by
  have going := entered_going wf internal fit fits small
  have ahead : Ahead (entered P m n len).m.tail (pullupLimit 0 (entered P m n len))
      (entered P m n len).n := by
    apply ahead_of_apart (r := m.room)
    · intro e member
      exact wf.rooms_apart internal (List.mem_append_left _ member)
    · exact fits
    · exact Nat.le_trans fit.1 (Nat.le_add_right _ _)
    · exact going.moving.room
  simp only [pullupRun] at run
  split at run
  · cases run
  · rename_i t left
    have advanced := Advanced.looped steady_pullup going internal ahead left
    obtain ⟨flags, pkthdr, plainT⟩ := pullLoop_headers left plain
    by_cases done : t.len = 0
    · rw [pullEnd_done done] at run
      simp only [Option.some.injEq, Prod.mk.injEq] at run
      obtain ⟨rfl, rfl⟩ := run
      have data := advanced.kept.data
      have size := congrArg List.length data
      have moved := advanced.kept.len
      rw [flatten_length, flatten_length] at size
      simp only [entered] at flags pkthdr size moved
      refine ⟨t.m, t.n, rfl, ⟨⟨advanced.going.moving.wf, ?_, by rw [flags, flagged], plainT, ?_⟩,
        data, by omega,
        advanced.spared, .inr advanced.plain⟩, flags, pkthdr⟩
      · exact List.forall_mem_cons.mpr ⟨advanced.going.moving.fit, advanced.going.moving.fits⟩
      · rw [pkthdr, mpLen, size]
    · rw [pullEnd_short (by omega)] at run
      exact absurd (bad_empty run) some

end

theorem Intact.pullup (intact : Intact A P others first rest) (small : len < 2^32)
    (call : mbufPullup A 0 fuel P (first :: rest) len = some (new, P')) (kept : new ≠ []) :
    ∃ first' rest', new = first' :: rest' ∧ Joined A P P' others (first :: rest) len first' rest' := by
  obtain ⟨wf, fits, flagged, plain, mpLen⟩ := intact
  obtain ⟨fit, fitsRest⟩ := List.forall_mem_cons.mp fits
  simp only [mbufPullup] at call
  split at call
  · rename_i place
    have internal : first.flags.ext = false := by simpa using place.1
    obtain ⟨first', rest', same, joined, flags, _⟩ :=
      pullupRun_joined wf internal fit fitsRest flagged plain mpLen (by omega)
      call kept
    refine ⟨first', rest', same, { joined with long := ?_ }⟩
    have := joined.long
    omega
  split at call
  · exact absurd (bad_empty call) kept
  rename_i short
  rcases wf.take (wf.types first (by simp)) false with ⟨_, failed⟩ | ⟨p, k, _, _, given, wf₁⟩
  · rw [mbufGet, failed] at call
    exact absurd (bad_empty call) kept
  · rw [mbufGet, given] at call
    dsimp only at call
    obtain ⟨wf₂, fit₂, _⟩ := fresh_headed flagged (show len ≤ mhlen by omega) wf₁
    obtain ⟨first', rest', same, joined, flags, _⟩ := pullupRun_joined wf₂ rfl fit₂ (fits_drop fits) flagged
      (dropped_plain plain)
        (by simp only [copyPkthdr, mpLen, total_cons, Mbuf.dropPkthdr, Nat.zero_add]) small call kept
    exact ⟨first', rest', same, joined.intact, joined.data,
      Nat.le_trans (Nat.le_add_left _ _) joined.long, joined.spared,
      .inr (by rw [flags]; rfl)⟩

/-- An mbuf of which nothing but the length and the packet header has changed, and no byte has been added. -/
structure Cut (m m' : Mbuf) : Prop where
  same : m' = { m with len := m'.len, pkthdr := m'.pkthdr }
  less : m'.len ≤ m.len

theorem Cut.front (m : Mbuf) {count : Nat} (bound : count ≤ m.len) :
    Cut m { m with len := count } := ⟨rfl, bound⟩

theorem Cut.room {m m' : Mbuf} (cut : Cut m m') : m'.room = m.room ∧ m'.data = m.data := by
  rw [cut.same]
  exact ⟨rfl, rfl⟩

theorem Cut.fit {m m' : Mbuf} (cut : Cut m m') (fit : m.Fit) : m'.Fit := by
  obtain ⟨room, data⟩ := cut.room
  have less := cut.less
  simp only [Mbuf.Fit, room, data] at *
  omega

theorem cut_of_mem {chain chain' : Chain} (cut : List.Forall₂ Cut chain chain') {m' : Mbuf}
    (member : m' ∈ chain') :
    ∃ m ∈ chain, Cut m m' := by
  induction cut with
  | nil => cases member
  | @cons m k rest rest' here _ ih =>
    rcases List.mem_cons.mp member with rfl | member
    · exact ⟨m, List.mem_cons_self, here⟩
    · obtain ⟨e, found, cut⟩ := ih member
      exact ⟨e, List.mem_cons_of_mem _ found, cut⟩

theorem trimTail_cut (chain : Chain) (count : Nat) : List.Forall₂ Cut chain (trimTail chain count) := by
  induction chain generalizing count with
  | nil => exact .nil
  | cons m rest ih =>
    rw [trimTail]
    split
    · rename_i inside
      refine .cons (.front m inside) ?_
      rw [List.forall₂_map_right_iff]
      exact List.forall₂_same.mpr fun e _ => .front e (Nat.zero_le _)
    · exact .cons ⟨rfl, Nat.le_refl _⟩ (ih _)

theorem mbufTrim_first (flagged : first.flags.pkthdr = true) (trimlen : Nat) :
    ∃ first' rest', mbufTrim (first :: rest) trimlen true = first' :: rest' ∧ Cut first first' ∧
      List.Forall₂ Cut rest rest' ∧ first'.pkthdr.mpRecvif = first.pkthdr.mpRecvif ∧
      first'.len = min first.len (wrap (total (first :: rest)) - trimlen) := by
  have kept : wrap (total (first :: rest)) - min (wrap (total (first :: rest))) trimlen =
    wrap (total (first :: rest)) - trimlen := by omega
  rw [mbufTrim, if_pos rfl]
  dsimp only
  rw [kept, setMpLen, if_pos flagged, trimTail]
  generalize wrap (total (first :: rest)) - trimlen = count
  split
  · rename_i inside
    refine ⟨_, _, rfl, ⟨rfl, inside⟩, ?_, rfl, (Nat.min_eq_right inside).symm⟩
    rw [List.forall₂_map_right_iff]
    exact List.forall₂_same.mpr fun e _ => .front e (Nat.zero_le _)
  · rename_i beyond
    have shorter : first.len < count := Nat.not_le.mp beyond
    exact ⟨_, _, rfl, ⟨rfl, Nat.le_refl _⟩, trimTail_cut _ _, rfl,
      (Nat.min_eq_left (Nat.le_of_lt shorter)).symm⟩

theorem Own.cut {first' : Mbuf} {rest' : Chain} (own : Own first rest) (here : Cut first first')
    (behind : List.Forall₂ Cut rest rest') :
    Own first' rest' := by
  have within : ∀ {m m' : Mbuf}, Cut m m' → Region.Within m'.extent m.extent := by
    intro m m' cut
    have data := cut.room.2
    have less := cut.less
    simp only [Region.Within, Region.stop, Mbuf.extent, data]
    omega
  intro e member
  obtain ⟨m, earlier, cut⟩ := cut_of_mem behind member
  exact (own m earlier).mono (within cut) (within here)

theorem Wf.cut {chain chain' : Chain} (cut : List.Forall₂ Cut chain chain') (wf : Wf A P (chain ++ others)) :
    Wf A P (chain' ++ others) := by
  induction cut generalizing others with
  | nil => exact wf
  | @cons m m' rest rest' here behind ih =>
    have same := here.same
    have front : Wf A P (m' :: (rest ++ others)) :=
      wf.adjust (by rw [same]) (by rw [same]) (by rw [same]) (fun _ => by rw [same])
    exact (ih (front.perm List.perm_middle.symm)).perm List.perm_middle

theorem Intact.trim (intact : Intact A P others first rest) (word : total (first :: rest) < 2^32)
    (trimlen : Nat) :
    ∃ first' rest', mbufTrim (first :: rest) trimlen true = first' :: rest' ∧ Intact A P others first' rest' ∧
      flatten P.mem (first' :: rest') = (flatten P.mem (first :: rest)).take
        (total (first :: rest) - trimlen) ∧
      first'.data = first.data ∧ first'.len = min first.len (total (first :: rest) - trimlen) ∧
      first'.pkthdr.mpRecvif = first.pkthdr.mpRecvif ∧ (Own first rest → Own first' rest') := by
  obtain ⟨wf, fits, flagged, plain, mpLen⟩ := intact
  have trimmed := (trim_drops flagged mpLen (by omega) P.mem trimlen).2
  obtain ⟨first', rest', shape, cut, behind, recvif, len⟩ := @mbufTrim_first first rest flagged trimlen
  have trimmed := (trim_drops flagged mpLen (by omega) P.mem trimlen).2
  rw [shape] at trimmed
  obtain ⟨_, counted⟩ := trimmed.header first' rfl
  have all : List.Forall₂ Cut (first :: rest) (first' :: rest') := .cons cut behind
  rw [wrap_of_lt word] at len
  refine ⟨first', rest', shape, ⟨wf.cut all, ?_, by rw [cut.same, flagged], ?_, counted⟩,
    trimmed.data, cut.room.2, len, recvif,
    fun own => own.cut cut behind⟩
  · intro e member
    obtain ⟨m, here, cut⟩ := cut_of_mem all member
    exact cut.fit (fits m here)
  · intro e member
    obtain ⟨m, here, cut⟩ := cut_of_mem behind member
    rw [cut.same]
    exact plain m here

end Embryo.Uipc
