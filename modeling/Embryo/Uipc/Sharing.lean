import Embryo.Uipc.Packet

namespace Embryo.Uipc

open Embryo.Machine
open Embryo.Kmem (Arena kmemMalloc kmemSize pageSize)

def Spared (P P' : Pool) (other : Chain) : Prop :=
  ∀ e ∈ other, bytes P'.mem e.data e.len = bytes P.mem e.data e.len

variable {A : Arena} {P P' P'' : Pool} {others : List Mbuf} {other chain rest : Chain} {first : Mbuf}
  {s : Pulling} {limit : Pulling → Nat}

theorem Spared.flatten_eq (spared : Spared P P' other) : flatten P'.mem other = flatten P.mem other :=
  List.flatMap_congr spared

theorem Spared.trans (first : Spared P P' other) (second : Spared P' P'' other) : Spared P P'' other :=
  fun e member => (second e member).trans (first e member)

theorem Calm.spared {live : List Mbuf} (calm : Calm P P' live) (members : ∀ e ∈ other, e ∈ live)
    (fits : ∀ e ∈ other, e.Fit) : Spared P P' other := by
  intro e member
  apply bytes_congr
  intro x low high
  obtain ⟨start, stop⟩ := fits e member
  exact calm.mem e (members e member) x (by omega) (by omega)

section

variable (members : ∀ e ∈ other, e ∈ others) (fitsOther : ∀ e ∈ other, e.Fit)

include members fitsOther

theorem finish_spares (steady : Steady limit) (going : Going A others limit s)
    (enough : min s.len (total s.n) ≤ limit s)
    (clear : ∀ e ∈ other, Region.Clear e.extent ⟨s.m.tail, min (limit s) (total s.n)⟩) :
    ∃ fuel new P', finish A limit fuel s = some (new, P') ∧ Spared s.pool P' other := by
  obtain ⟨fuel, t, looped, going', ⟨spared, _⟩, stopped⟩ := going.returns steady
    (fun t => Spared s.pool t.pool other ∧
      ∀ e ∈ other, Region.Clear e.extent ⟨t.m.tail, min (limit t) (total t.n)⟩)
    (by
      rintro t t' first rest going going' nodes pulled next len ⟨spared, clear⟩
      have tail : t'.m.tail = t.m.tail + min (limit t) first.len := by
        rw [pulled.m]
        exact (Nat.add_assoc _ _ _).symm
      rw [nodes, total_cons] at clear
      constructor
      · intro e member
        rw [← spared e member]
        apply pulled.others_kept (members e member) (fitsOther e member)
        apply (clear e member).mono ⟨Nat.le_refl _, Nat.le_refl _⟩
        simp only [Region.Within, Region.stop]
        omega
      · intro e member
        apply (clear e member).mono ⟨Nat.le_refl _, Nat.le_refl _⟩
        rw [tail, next, pulled.n, total_behind (Nat.min_le_right _ _), total_cons]
        simp only [Region.Within, Region.stop]
        omega)
    enough ⟨fun _ _ => rfl, clear⟩
  by_cases done : t.len = 0
  · refine ⟨fuel, t.m :: t.n, t.pool, ?_, spared⟩
    simp only [finish, looped]
    exact pullEnd_done done
  · have wf : Wf A t.pool ((t.m :: t.n) ++ others) := going'.moving.wf
    obtain ⟨P', freed, _, result⟩ := wf.bad_frees
    refine ⟨fuel, [], P', ?_, spared.trans (result.calm.spared members fitsOther)⟩
    simp only [finish, looped]
    rw [pullEnd_short (by omega)]
    exact freed

theorem clear_of_apart {r w : Region} (apart : ∀ e ∈ others, Region.Apart e.room r)
    (inside : Region.Within w r) : ∀ e ∈ other, Region.Clear e.extent w := by
  intro e member
  exact (apart e (members e member)).clear.mono (fitsOther e member) inside

theorem pullupRun_spares {m : Mbuf} {n : Chain} {len : Nat} (wf : Wf A P (m :: (n ++ others)))
    (plain : m.flags.ext = false) (fit : m.Fit) (fits : ∀ e ∈ n, e.Fit) (small : len < 2^32)
    (room : m.tail + min len (total n) ≤ m.datEnd) :
    ∃ fuel new P', pullupRun A 0 fuel P m n len = some (new, P') ∧ Spared P P' other := by
  have going := entered_going wf plain fit fits small
  have space := @entered_space _ _ _ _ n len wf plain fit
  apply finish_spares members fitsOther steady_pullup going
  · simp only [pullupLimit, space]
    simp only [entered]
    omega
  · apply clear_of_apart members fitsOther (r := m.room)
    · intro e member
      exact wf.rooms_apart plain (List.mem_append_right _ member)
    · exact ⟨Nat.le_trans fit.1 (Nat.le_add_right _ _), going.moving.room⟩

theorem pullupBigRun_spares {m : Mbuf} {n : Chain} {len : Nat} (wf : Wf A P (m :: (n ++ others)))
    (fit : m.Fit) (fits : ∀ e ∈ n, e.Fit) (small : len < 2^32)
    (room : m.tail + min len (total n) ≤ m.room.stop)
    (clear : ∀ e ∈ other, Region.Clear e.extent ⟨m.tail, min len (total n)⟩) :
    ∃ fuel new P', pullupBigRun A fuel P m n len = some (new, P') ∧ Spared P P' other := by
  have going : Going A others Pulling.len ⟨P, m, n, len, 0⟩ :=
    ⟨⟨wf, fit, fits, room⟩, small, Nat.two_pow_pos 32⟩
  exact finish_spares members fitsOther steady_len going (Nat.min_le_left _ _) clear

theorem bad_spares (wf : Wf A P (chain ++ others)) :
    ∃ new P', bad A P chain = some (new, P') ∧ Spared P P' other := by
  obtain ⟨P', freed, _, result⟩ := wf.bad_frees
  exact ⟨[], P', freed, result.calm.spared members fitsOther⟩

end

section

variable {len : Nat} (members : ∀ e ∈ other, e ∈ others) (fitsOther : ∀ e ∈ other, e.Fit)
  (wf : Wf A P (first :: rest ++ others)) (fits : ∀ e ∈ first :: rest, e.Fit) (small : len < 2^32)

include members fitsOther fits small

theorem pullup_fresh_spares {k : Kmem.State} {p : Nat} (short : len ≤ mhlen)
    (wf₁ : Wf A (took P k p first.type)
      (initial (P.stale p) p first.type false :: (first :: rest ++ others))) :
    ∃ fuel new P', (if first.flags.pkthdr then
        pullupRun A 0 fuel (took P k p first.type)
          (copyPkthdr { initial (P.stale p) p first.type false with len := 0 } first)
          (first.dropPkthdr :: rest) len
      else pullupRun A 0 fuel (took P k p first.type)
        { initial (P.stale p) p first.type false with len := 0 } (first :: rest) len) = some (new, P') ∧
      Spared P P' other := by
  by_cases flagged : first.flags.pkthdr = true
  · obtain ⟨wf₂, fit, room⟩ := fresh_headed flagged short wf₁
    obtain ⟨fuel, new, P', run, spared⟩ := pullupRun_spares members fitsOther wf₂ rfl fit (fits_drop fits)
      small room
    exact ⟨fuel, new, P', by simp only [flagged, if_true]; exact run, spared⟩
  · obtain ⟨wf₂, fit, room⟩ := fresh_plain short wf₁
    obtain ⟨fuel, new, P', run, spared⟩ := pullupRun_spares members fitsOther wf₂ rfl fit fits small room
    exact ⟨fuel, new, P', by simp only [flagged]; exact run, spared⟩

include wf

theorem pullup_spares (free : ¬ Stuck (first :: rest) len) :
    ∃ fuel new P', mbufPullup A 0 fuel P (first :: rest) len = some (new, P') ∧ Spared P P' other := by
  by_cases place : InPlace first len
  · have test : ¬ first.flags.ext ∧ wrap (first.data + len) < first.datEnd := by
      simpa [InPlace] using place
    obtain ⟨fuel, new, P', run, spared⟩ := @pullupRun_spares A P others other members fitsOther first rest
      (len - min len first.len) wf place.1 (fits first List.mem_cons_self)
      (fun e member => fits e (List.mem_cons_of_mem _ member)) (by omega)
      (by simp only [Stuck, place, true_and] at free; omega)
    exact ⟨fuel, new, P', by simp only [mbufPullup]; rw [if_pos test]; exact run, spared⟩
  · have test : ¬ (¬ first.flags.ext ∧ wrap (first.data + len) < first.datEnd) := by
      simpa [InPlace] using place
    obtain ⟨new, P', freed, spared⟩ := bad_spares members fitsOther wf
    by_cases long : len > mhlen
    · exact ⟨0, new, P', by simp only [mbufPullup]; rw [if_neg test, if_pos long]; exact freed, spared⟩
    · rcases wf.take (wf.types first (by simp)) false with ⟨_, failed⟩ | ⟨p, k, _, _, given, wf₁⟩
      · refine ⟨0, new, P', ?_, spared⟩
        simp only [mbufPullup, mbufGet, failed]
        rw [if_neg test, if_neg long]
        exact freed
      · obtain ⟨fuel, new, P', run, spared⟩ := pullup_fresh_spares members fitsOther fits small (by omega) wf₁
        refine ⟨fuel, new, P', ?_, spared⟩
        simp only [mbufPullup, mbufGet, given]
        rw [if_neg test, if_neg long]
        exact run

/-- What `mbuf_pullup_big` relies on for the sake of `other`: as for its own chain, except that in
    place it is the data of `other` that must lie outside the window. -/
def Considerate (A : Arena) (P : Pool) (other : Chain) : Chain → Nat → Prop
  | [], _ => True
  | first :: rest, len =>
    (len ≤ mhlen → ¬ Stuck (first :: rest) len) ∧
    (mhlen < len → InPlaceBig first len →
      first.tail + min (len - min len first.len) (total rest) ≤ first.room.stop ∧
      ∀ e ∈ other, Region.Clear e.extent ⟨first.tail, min (len - min len first.len) (total rest)⟩) ∧
    (mhlen < len → ¬ InPlaceBig first len → len ≤ mclBytes → Supplied A P)

omit wf in
theorem pullupBig_cluster_spares {P₂ : Pool} {m : Mbuf} {c : Nat} (short : len ≤ mclBytes)
    (wf₂ : Wf A P₂ (m.extend c :: (first :: rest ++ others)))
    (free : ∀ e ∈ first :: rest ++ others, e.holds c = false)
    (calm : Calm P P₂ (first :: rest ++ others)) :
    ∃ fuel new P', (if first.flags.pkthdr then
        pullupBigRun A fuel P₂ (m.headCluster first c) (first.dropPkthdr :: rest) len
      else pullupBigRun A fuel P₂ { m.extend c with len := 0 } (first :: rest) len) = some (new, P') ∧
      Spared P P' other := by
  obtain ⟨wfH, wfP, apart, apartH⟩ := cluster_ready wf₂ free
  have before : Spared P P₂ other :=
    calm.spared (fun e member => List.mem_append_right _ (members e member)) fitsOther
  have clear : ∀ n : Chain, ∀ e ∈ other, Region.Clear e.extent ⟨c, min len (total n)⟩ := by
    intro n
    apply clear_of_apart members fitsOther (r := cluster c)
    · intro e member
      exact apart e (List.mem_append_right _ member)
    · exact ⟨Nat.le_refl _, cluster_room c n short⟩
  by_cases flagged : first.flags.pkthdr = true
  · obtain ⟨fuel, new, P', run, spared⟩ := @pullupBigRun_spares _ _ _ _ members fitsOther _ _ len wfH
      (fit_empty rfl rfl) (fits_drop fits) small (cluster_room c _ short) (clear _)
    exact ⟨fuel, new, P', by simp only [flagged, if_true]; exact run, before.trans spared⟩
  · obtain ⟨fuel, new, P', run, spared⟩ := @pullupBigRun_spares _ _ _ _ members fitsOther _ _ len wfP
      (fit_empty rfl rfl) fits small (cluster_room c _ short) (clear _)
    exact ⟨fuel, new, P', by simp only [flagged]; exact run, before.trans spared⟩

theorem pullupBig_spares (considerate : Considerate A P other (first :: rest) len) :
    ∃ fuel new P', mbufPullupBig A 0 fuel P (first :: rest) len = some (new, P') ∧ Spared P P' other := by
  obtain ⟨easy, window, supply⟩ := considerate
  by_cases little : len ≤ mhlen
  · obtain ⟨fuel, new, P', run, spared⟩ := pullup_spares members fitsOther wf fits small (easy little)
    exact ⟨fuel, new, P', by rw [mbufPullupBig, if_pos little]; exact run, spared⟩
  have large : mhlen < len := by omega
  by_cases place : InPlaceBig first len
  · obtain ⟨room, clear⟩ := window large place
    obtain ⟨fuel, new, P', run, spared⟩ := @pullupBigRun_spares A P others other members fitsOther first rest
      (len - min len first.len) wf (fits first List.mem_cons_self)
      (fun e member => fits e (List.mem_cons_of_mem _ member)) (by omega) room clear
    refine ⟨fuel, new, P', ?_, spared⟩
    rw [mbufPullupBig, if_neg little]
    exact (if_pos place).trans run
  have test : ¬ (first.flags.ext = true ∧ wrap (first.data + len) < first.ext.meBuf + mclBytes) := place
  obtain ⟨new₀, P₀, freed₀, spared₀⟩ := bad_spares members fitsOther wf
  by_cases long : len > mclBytes
  · refine ⟨0, new₀, P₀, ?_, spared₀⟩
    rw [mbufPullupBig, if_neg little, if_neg test, if_pos long]
    exact freed₀
  rcases wf.take (wf.types first (by simp)) false with ⟨_, failed⟩ | ⟨p, k, call, nonzero, given, wf₁⟩
  · refine ⟨0, new₀, P₀, ?_, spared₀⟩
    simp only [mbufPullupBig, mbufGet, failed]
    rw [if_neg little, if_neg test, if_neg long]
    exact freed₀
  have calm₁ := took_calm P k p first.type (first :: rest ++ others)
  rcases (supply large place (by omega)).getext call nonzero wf₁ with
    ⟨c, P₂, got, wf₂, calm₂, _, _, unheld⟩ | got
  · obtain ⟨fuel, new, P', run, spared⟩ := pullupBig_cluster_spares members fitsOther fits small
      (by omega) wf₂
      unheld (calm₁.trans (calm₂.mono (fun e member => List.mem_cons_of_mem _ member)) (fun _ h => h))
    refine ⟨fuel, new, P', ?_, spared⟩
    simp only [mbufPullupBig, mbufGet, given, got, ne_eq, not_true_eq_false, if_false]
    rw [if_neg little, if_neg test, if_neg long]
    exact run
  · obtain ⟨P₂, freed, wf₂, result⟩ := wf₁.free
    obtain ⟨new, P₃, freedAll, spared⟩ := bad_spares members fitsOther wf₂
    have before : Spared P P₂ other :=
      (calm₁.trans result.calm (fun _ h => h)).spared
        (fun e member => List.mem_append_right _ (members e member)) fitsOther
    refine ⟨0, new, P₃, ?_, before.trans spared⟩
    simp only [mbufPullupBig, mbufGet, given, got, ne_eq, one_ne_zero, not_false_eq_true, if_true, freed]
    rw [if_neg little, if_neg test, if_neg long]
    exact freedAll

omit fits small in
theorem reserve_spares : ∃ new P', mbufReserve A P (first :: rest) len = some (new, P') ∧
    Spared P P' other := by
  have all : ∀ e ∈ other, e ∈ first :: rest ++ others :=
    fun e member => List.mem_append_right _ (members e member)
  obtain ⟨new, P', freed, spared⟩ := bad_spares members fitsOther wf
  simp only [mbufReserve]
  split
  · exact ⟨_, P, rfl, fun _ _ => rfl⟩
  · split
    · exact ⟨new, P', freed, spared⟩
    · rcases wf.take (wf.types first (by simp)) false with ⟨_, failed⟩ | ⟨p, k, _, _, given, wf₁⟩
      · simp only [reserveFront, mbufGet, failed, freed]
        exact ⟨_, P', rfl, spared⟩
      · simp only [reserveFront, mbufGet, given]
        exact ⟨_, _, rfl, (took_calm P k p first.type _).spared all fitsOther⟩

end

theorem pullupRun_mono {m : Mbuf} {n new : Chain} {len fuel fuel' : Nat}
    (run : pullupRun A 0 fuel P m n len = some (new, P')) (bound : fuel ≤ fuel') :
    pullupRun A 0 fuel' P m n len = some (new, P') := by
  unfold pullupRun at run ⊢
  dsimp only at run ⊢
  split at run
  · cases run
  · rename_i s looped
    rw [loop_mono looped bound (fun _ _ h => h)]
    exact run

theorem mbufPullup_mono {new : Chain} {len fuel fuel' : Nat}
    (call : mbufPullup A 0 fuel P chain len = some (new, P')) (bound : fuel ≤ fuel') :
    mbufPullup A 0 fuel' P chain len = some (new, P') := by
  cases chain with
  | nil => exact call
  | cons first rest =>
    simp only [mbufPullup] at call ⊢
    split
    · rename_i place
      rw [if_pos place] at call
      exact pullupRun_mono call bound
    · rename_i away
      rw [if_neg away] at call
      split
      · rename_i long
        rwa [if_pos long] at call
      · rename_i short
        rw [if_neg short] at call
        split
        · rename_i given
          rwa [given] at call
        · rename_i given
          rw [given] at call
          dsimp only at call
          split
          · rename_i flagged
            rw [if_pos flagged] at call
            exact pullupRun_mono call bound
          · rename_i flagged
            rw [if_neg flagged] at call
            exact pullupRun_mono call bound

theorem trimHead_addrs (m : Chain) (len : Nat) : (trimHead m len).1.map Mbuf.addr = m.map Mbuf.addr := by
  induction m generalizing len with
  | nil => rfl
  | cons m n ih =>
    unfold trimHead
    split
    · rfl
    · split
      · rfl
      · simp only [List.map_cons, ih]

theorem trimTail_addrs (m : Chain) (count : Nat) : (trimTail m count).map Mbuf.addr = m.map Mbuf.addr := by
  induction m generalizing count with
  | nil => rfl
  | cons m n ih =>
    unfold trimTail
    split
    · simp only [List.map_cons, List.map_map]
      rfl
    · rw [List.map_cons, List.map_cons, ih]

theorem setMpLen_addrs (m : Chain) (f : Nat → Nat) : (setMpLen m f).map Mbuf.addr = m.map Mbuf.addr := by
  unfold setMpLen
  split
  · rfl
  · split <;> rfl

theorem mbufTrim_addrs (m : Chain) (trimlen : Nat) (tail : Bool) :
    (mbufTrim m trimlen tail).map Mbuf.addr = m.map Mbuf.addr := by
  unfold mbufTrim
  split
  · simp only [trimTail_addrs, setMpLen_addrs]
  · simp only [setMpLen_addrs, trimHead_addrs]

/-- The data of `other` survives calls on another chain that may share its clusters: always
    `mbuf_pullup`, `mbuf_trim` and `mbuf_reserve`, and `mbuf_pullup_big` when its window is clear. -/
theorem sharers_spared {len : Nat} (wf : Wf A P (chain ++ (other ++ others))) (fits : ∀ e ∈ chain, e.Fit)
    (fitsOther : ∀ e ∈ other, e.Fit) (small : len < 2^32) :
    (∀ fuel new P', mbufPullup A 0 fuel P chain len = some (new, P') →
      flatten P'.mem other = flatten P.mem other) ∧
    (Considerate A P other chain len →
      ∃ fuel new P', mbufPullupBig A 0 fuel P chain len = some (new, P') ∧
        flatten P'.mem other = flatten P.mem other) ∧
    (∃ new P', mbufReserve A P chain len = some (new, P') ∧ flatten P'.mem other = flatten P.mem other) ∧
    (∀ tail, (mbufTrim chain len tail).map Mbuf.addr = chain.map Mbuf.addr) := by
  have members : ∀ e ∈ other, e ∈ other ++ others := fun e member => List.mem_append_left _ member
  refine ⟨?_, ?_, ?_, mbufTrim_addrs chain len⟩
  · intro fuel new P' returned
    cases chain with
    | nil =>
      simp only [mbufPullup, Option.some.injEq, Prod.mk.injEq] at returned
      rw [← returned.2]
    | cons first rest =>
      by_cases stuck : Stuck (first :: rest) len
      · rw [pullup_hangs wf fits small stuck fuel] at returned
        cases returned
      · obtain ⟨fuel', new', P'', returned', spared⟩ := pullup_spares members fitsOther wf fits small stuck
        have same := (mbufPullup_mono returned (Nat.le_max_left fuel fuel')).symm.trans
          (mbufPullup_mono returned' (Nat.le_max_right fuel fuel'))
        simp only [Option.some.injEq, Prod.mk.injEq] at same
        rw [same.2]
        exact spared.flatten_eq
  · intro considerate
    cases chain with
    | nil => exact ⟨0, [], P, rfl, rfl⟩
    | cons first rest =>
      obtain ⟨fuel, new, P', returned, spared⟩ :=
        pullupBig_spares members fitsOther wf fits small considerate
      exact ⟨fuel, new, P', returned, spared.flatten_eq⟩
  · cases chain with
    | nil => exact ⟨[], P, rfl, rfl⟩
    | cons first rest =>
      obtain ⟨new, P', returned, spared⟩ := @reserve_spares A P _ _ _ _ len members fitsOther wf
      exact ⟨new, P', returned, spared.flatten_eq⟩

/-- An mbuf over 101 bytes of a cluster, a copy of its first 100, and one more byte behind the copy. -/
abbrev whole : Mbuf := { firstExt.2.1 with len := 101 }
abbrev halved : Chain × Pool := (mbufCopy Kmem.board firstExt.2.2 [whole] 0 100).getD ([], firstExt.2.2)
abbrev lastGet : Option Mbuf × Pool := mbufTake Kmem.board halved.2 2 false
abbrev appended : Mbuf := { mbufOf lastGet with len := 1 }
abbrev shared : Pool := { lastGet.2 with mem := Function.update lastGet.2.mem appended.data 1 }
abbrev pulled : Chain × Pool :=
  (mbufPullupBig Kmem.board 0 3 shared (halved.1 ++ [appended]) 101).getD ([], shared)

theorem shared_answers :
    ((mbufCopy Kmem.board firstExt.2.2 [whole] 0 100).isSome = true ∧ lastGet.1.isSome = true) ∧
    (∀ e ∈ [whole], e.room.addr ≤ e.data ∧ e.data + e.len ≤ e.room.stop) ∧
    (∀ e ∈ halved.1 ++ [appended], e.room.addr ≤ e.data ∧ e.data + e.len ≤ e.room.stop) ∧
    (mbufPullupBig Kmem.board 0 3 shared (halved.1 ++ [appended]) 101).isSome = true ∧
      flatten pulled.2.mem [whole] ≠ flatten shared.mem [whole] := by
  decide +kernel

theorem shared_wf : Wf Kmem.board shared (halved.1 ++ [appended] ++ ([whole] ++ [])) := by
  have edit₁ := @Reachable.edit_head _ _ _ _ _ whole firstExt_reachable rfl rfl rfl rfl
  obtain ⟨⟨ended, given⟩, fits, fitsCopy, -⟩ := shared_answers
  have call₂ : mbufCopy Kmem.board firstExt.2.2 [whole] 0 100 = some (halved.1, halved.2) :=
    some_getD (d := ([], firstExt.2.2)) ended
  have copied := edit₁.copy (by simp) (by simp) fits call₂
  have get₂ := copied.get (@get_eq lastGet given)
  have edit₂ := @Reachable.edit_head _ _ _ _ _ appended get₂ rfl rfl rfl rfl
  have written := @Reachable.write _ _ _ _ appended shared.mem edit₂ List.mem_cons_self (by
    intro x outside
    apply Function.update_of_ne
    rintro rfl
    exact outside (fitsCopy appended (List.mem_append_right _ List.mem_cons_self)))
  apply written.wf.perm
  have moved : (appended :: (halved.1 ++ [whole])).Perm (halved.1 ++ appended :: [whole]) :=
    List.perm_middle.symm
  simpa using moved

theorem sharers_spared_reserve :
    ∃ new P', mbufReserve Kmem.board shared (halved.1 ++ [appended]) 14 = some (new, P') ∧
      flatten P'.mem [whole] = flatten shared.mem [whole] := by
  obtain ⟨-, fitsOther, fits, -⟩ := shared_answers
  exact (@sharers_spared Kmem.board shared [] [whole] _ 14 shared_wf fits fitsOther (by decide)).2.2.1

/-- A pullup of the chain that holds the copy changes the last byte of the original. -/
theorem sharers_overwritten :
    mbufPullupBig Kmem.board 0 3 shared (halved.1 ++ [appended]) 101 = some pulled ∧
      flatten pulled.2.mem [whole] ≠ flatten shared.mem [whole] := by
  obtain ⟨-, -, -, ended, differs⟩ := shared_answers
  exact ⟨some_getD ended, differs⟩

end Embryo.Uipc
