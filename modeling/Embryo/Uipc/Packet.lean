import Embryo.Uipc.Header
import Embryo.Uipc.Pullup

namespace Embryo.Uipc

open Embryo.Machine
open Embryo.Kmem (Arena kmemMalloc kmemSize pageSize)

/-- A pullup of `len` bytes has kept the packet, or has freed each of its mbufs and each mbuf
    it took itself, once. -/
structure PulledUp (P : Pool) (chain : Chain) (len : Nat) (new : Chain) (P' : Pool) : Prop where
  answer :
    (∃ first rest, new = first :: rest ∧ flatten P'.mem new = flatten P.mem chain ∧
      len ≤ first.len ∧ first.Fit) ∨
    (new = [] ∧ ∃ taken gone, P'.taken = taken ++ P.taken ∧ P'.freed = gone ++ P.freed ∧
      gone.Perm (chain.map Mbuf.addr ++ taken))
  short : total chain < len → new = []

def finish (A : Arena) (limit : Pulling → Nat) (fuel : Nat) (s : Pulling) : Option (Chain × Pool) :=
  match loop (pullPass A limit) fuel s with
  | none => none
  | some s => pullEnd A s

structure Kept (limit : Pulling → Nat) (s t : Pulling) : Prop where
  data : flatten t.pool.mem (t.m :: t.n) = flatten s.pool.mem (s.m :: s.n)
  ahead : Ahead t.m.tail (limit t) t.n
  taken : t.pool.taken = s.pool.taken
  freed : ∃ gone, t.pool.freed = gone ++ s.pool.freed ∧
    (gone ++ (t.m :: t.n).map Mbuf.addr).Perm ((s.m :: s.n).map Mbuf.addr)
  len : t.m.len + t.len = s.m.len + s.len

variable {A : Arena} {P P' : Pool} {others : List Mbuf} {s t t' : Pulling} {limit : Pulling → Nat}
  {first : Mbuf} {rest chain : Chain}

theorem Kept.pass (kept : Kept limit s t) (steady : Steady limit) (going : Going A others limit t')
    (nodes : t.n = first :: rest) (pulled : Pulled t first rest others (min (limit t) first.len) t')
    (next : limit t' = limit t - min (limit t) first.len)
    (len : t'.len = t.len - min (limit t) first.len) : Kept limit s t' := by
  have bound := steady.le_len t
  have ahead := kept.ahead
  have moved := going.moving
  rw [next] at moved
  constructor
  · rw [pulled.flatten_eq nodes moved ahead, kept.data]
  · rw [nodes] at ahead
    have step := ahead.behind
    rw [next, pulled.n, pulled.m]
    rw [Mbuf.tail, Nat.add_assoc] at step
    exact step
  · rw [pulled.taken, kept.taken]
  · obtain ⟨gone, freed, perm⟩ := kept.freed
    refine ⟨(if min (limit t) first.len < first.len then [] else [first.addr]) ++ gone, ?_, ?_⟩
    · rw [pulled.freed, freed, List.append_assoc]
    · refine List.Perm.trans ?_ perm
      rw [pulled.m, pulled.n, nodes, behind]
      split
      · exact List.Perm.refl _
      · simp only [List.map_cons, List.cons_append]
        refine List.Perm.trans ?_ (@List.perm_middle _ _ gone _).symm
        refine List.Perm.trans (List.Perm.cons _ List.perm_middle) ?_
        refine List.Perm.trans (List.Perm.swap _ _ _) ?_
        exact List.Perm.cons _ List.perm_middle.symm
  · rw [pulled.m, len]
    have := kept.len
    simp only
    omega

def Settled (P : Pool) (own : Chain) (target : Nat) (new : Chain) (P' : Pool) : Prop :=
  (∃ first rest, new = first :: rest ∧ flatten P'.mem new = flatten P.mem own ∧
    target ≤ first.len ∧ first.Fit) ∨
  (new = [] ∧ P'.taken = P.taken ∧ ∃ gone, P'.freed = gone ++ P.freed ∧
    gone.Perm (own.map Mbuf.addr))

theorem Settled.pulledUp {P₁ : Pool} {own new : Chain} {target len : Nat}
    (settled : Settled P₁ own target new P') (more : List Nat)
    (data : flatten P₁.mem own = flatten P.mem chain)
    (taken : P₁.taken = more ++ P.taken) (freed : P₁.freed = P.freed)
    (addrs : (own.map Mbuf.addr).Perm (chain.map Mbuf.addr ++ more)) (enough : len ≤ target) :
    PulledUp P chain len new P' := by
  rcases settled with ⟨first, rest, shape, kept, long, fit⟩ | ⟨empty, same, gone, log, perm⟩
  · constructor
    · exact .inl ⟨first, rest, shape, kept.trans data, by omega, fit⟩
    · intro short
      have whole := congrArg List.length (kept.trans data)
      rw [flatten_length, flatten_length, shape, total_cons] at whole
      omega
  · constructor
    · exact .inr ⟨empty, more, gone, same.trans taken, by rw [log, freed], perm.trans addrs⟩
    · intro _
      exact empty

theorem finish_answers (steady : Steady limit) (going : Going A others limit s)
    (enough : min s.len (total s.n) ≤ limit s) (ahead : Ahead s.m.tail (limit s) s.n) :
    ∃ fuel new P', finish A limit fuel s = some (new, P') ∧
      Settled s.pool (s.m :: s.n) (s.m.len + s.len) new P' := by
  have start : Kept limit s s := ⟨rfl, ahead, rfl, ⟨[], rfl, List.Perm.refl _⟩, rfl⟩
  obtain ⟨fuel, t, looped, going', kept, stopped⟩ := going.returns steady (Kept limit s)
    (fun t t' first rest _ going nodes pulled next len kept => kept.pass steady going nodes pulled next len)
    enough start
  obtain ⟨gone, freed, perm⟩ := kept.freed
  by_cases done : t.len = 0
  · refine ⟨fuel, t.m :: t.n, t.pool, ?_, .inl ⟨t.m, t.n, rfl, kept.data, ?_, going'.moving.fit⟩⟩
    · simp only [finish, looped]
      exact pullEnd_done done
    · have := kept.len
      omega
  · have wf : Wf A t.pool ((t.m :: t.n) ++ others) := going'.moving.wf
    obtain ⟨P', freed', _, result⟩ := wf.bad_frees
    refine ⟨fuel, [], P', ?_, .inr ⟨rfl, ?_, ((t.m :: t.n).map Mbuf.addr).reverse ++ gone, ?_, ?_⟩⟩
    · simp only [finish, looped]
      rw [pullEnd_short (by omega)]
      exact freed'
    · rw [result.taken, kept.taken]
    · rw [result.freed, freed, List.append_assoc]
    · refine List.Perm.trans ?_ perm
      refine List.Perm.trans List.perm_append_comm ?_
      exact List.Perm.append_left gone (List.reverse_perm _)

theorem ahead_of_apart {r : Region} {dst amount : Nat} (apart : ∀ e ∈ chain, Region.Apart e.room r)
    (fits : ∀ e ∈ chain, e.Fit) (low : r.addr ≤ dst) (high : dst + min amount (total chain) ≤ r.stop) :
    Ahead dst amount chain := by
  have clear : ∀ e ∈ chain, ∀ k, dst + k ≤ r.stop → Region.Clear e.extent ⟨dst, k⟩ := by
    intro e member k bound
    apply (apart e member).clear.mono
    · exact fits e member
    · exact ⟨low, bound⟩
  induction chain generalizing dst amount with
  | nil => trivial
  | cons first rest ih =>
    rw [total_cons] at high
    have bound : dst + min amount first.len ≤ r.stop := by omega
    refine ⟨?_, ?_, ?_⟩
    · apply (clear first List.mem_cons_self _ bound).mono
      · simp only [Region.Within, Region.stop, Mbuf.extent]
        omega
      · exact ⟨Nat.le_refl _, Nat.le_refl _⟩
    · intro e member
      exact clear e (List.mem_cons_of_mem _ member) _ bound
    · apply ih (fun e member => apart e (List.mem_cons_of_mem _ member))
        (fun e member => fits e (List.mem_cons_of_mem _ member)) (by omega) (by omega)
      intro e member k within
      apply (apart e (List.mem_cons_of_mem _ member)).clear.mono
      · exact fits e (List.mem_cons_of_mem _ member)
      · exact ⟨Nat.le_trans low (Nat.le_add_right _ _), within⟩

theorem room_stop {m : Mbuf} (plain : m.flags.ext = false) : m.room.stop = m.datEnd := by
  simp only [Mbuf.room, plain, Bool.false_eq_true, if_false, Region.stop, Mbuf.datEnd, Mbuf.pktdat,
    Mbuf.dat, mhlen, mlen, msize, sizeofMHdr, sizeofPkthdr]
  split <;> rfl

/-- The state in which `mbuf_pullup` enters its loop. -/
def entered (P : Pool) (m : Mbuf) (n : Chain) (len : Nat) : Pulling :=
  ⟨P, m, n, len, wsub m.datEnd (wrap (m.data + m.len))⟩

section

variable {m : Mbuf} {n : Chain} {len : Nat} (wf : Wf A P (m :: (n ++ others)))
  (plain : m.flags.ext = false) (fit : m.Fit) (fits : ∀ e ∈ n, e.Fit) (small : len < 2^32)

include wf plain fit

theorem entered_space : (entered P m n len).space = m.datEnd - m.tail := by
  have stop := room_stop plain
  have bound := wf.room_lt List.mem_cons_self
  have high := fit.2
  simp only [entered]
  rw [wrap_of_lt (by omega), wsub_of_le (by omega) (by omega)]
  rfl

include fits small

theorem entered_going : Going A others (pullupLimit 0) (entered P m n len) := by
  have stop := room_stop plain
  have bound := wf.room_lt List.mem_cons_self
  have space := @entered_space _ _ _ _ n len wf plain fit
  have high : m.tail ≤ m.datEnd := by
    rw [← stop]
    exact fit.2
  refine ⟨⟨wf, fit, fits, ?_⟩, small, by omega⟩
  simp only [pullupLimit, space]
  simp only [entered]
  omega

theorem pullupRun_settles (room : m.tail + min len (total n) ≤ m.datEnd) :
    ∃ fuel new P', pullupRun A 0 fuel P m n len = some (new, P') ∧
      Settled P (m :: n) (m.len + len) new P' := by
  have going := entered_going wf plain fit fits small
  have space := @entered_space _ _ _ _ n len wf plain fit
  apply finish_answers steady_pullup going
  · simp only [pullupLimit, space]
    simp only [entered]
    omega
  · apply ahead_of_apart (r := m.room)
    · intro e member
      exact wf.rooms_apart plain (List.mem_append_left _ member)
    · exact fits
    · exact Nat.le_trans fit.1 (Nat.le_add_right _ _)
    · exact going.moving.room

theorem pullupRun_stuck (stuck : m.datEnd < m.tail + min len (total n)) (fuel : Nat) :
    pullupRun A 0 fuel P m n len = none := by
  have going := entered_going wf plain fit fits small
  have space := @entered_space _ _ _ _ n len wf plain fit
  have high : m.tail ≤ m.datEnd := by
    rw [← room_stop plain]
    exact fit.2
  have endless : loop (pullPass A (pullupLimit 0)) fuel (entered P m n len) = none := by
    apply loop_never_leaves (fun t : Pulling => Going A others (pullupLimit 0) t ∧ t.space < t.len ∧
      t.space < total t.n)
    · rintro t ⟨going, less, more⟩
      cases nodes : t.n with
      | nil =>
        rw [nodes] at more
        exact absurd more (Nat.not_lt_zero _)
      | cons first rest =>
        obtain ⟨t', passed, pulled, going', next, shorter⟩ := going.pass steady_pullup nodes (by omega)
        have limit : pullupLimit 0 t = t.space := by
          simp only [pullupLimit]
          omega
        have left : t'.space = t.space - min t.space first.len := by
          rw [pulled.space, limit, wsub_of_le (Nat.min_le_left _ _) going.space]
        rw [limit] at shorter pulled
        refine .inr ⟨t', passed, going', by omega, ?_⟩
        rw [pulled.n, total_behind (Nat.min_le_right _ _), left, ← nodes]
        omega
    · refine ⟨going, ?_, ?_⟩
      · rw [space]
        simp only [entered]
        omega
      · rw [space]
        simp only [entered]
        omega
  simp only [entered] at endless
  simp only [pullupRun, endless]

end

/-- `mbuf_pullup` finds the first mbuf long enough only because `m_data + len` has wrapped, and the
    bytes behind it do not fit. -/
def Stuck : Chain → Nat → Prop
  | [], _ => False
  | first :: rest, len => InPlace first len ∧
      first.datEnd < first.tail + min (len - min len first.len) (total rest)

theorem room_drop (m : Mbuf) : Region.Within m.room m.dropPkthdr.room := by
  cases ext : m.flags.ext with
  | true =>
    simp only [Mbuf.room, Mbuf.dropPkthdr, ext, if_true]
    exact ⟨Nat.le_refl _, Nat.le_refl _⟩
  | false =>
    have shape : m.dropPkthdr.room = ⟨m.dat, mlen⟩ := by
      simp only [Mbuf.room, Mbuf.dropPkthdr, ext, Bool.false_eq_true, if_false]
      rfl
    rw [shape]
    simp only [Mbuf.room, ext, Bool.false_eq_true, if_false, Region.Within, Region.stop]
    split <;> simp only [Mbuf.pktdat, Mbuf.dat, mhlen, mlen, msize, sizeofMHdr, sizeofPkthdr] <;> omega

theorem fit_drop {m : Mbuf} (fit : m.Fit) : m.dropPkthdr.Fit := by
  have inside := room_drop m
  exact ⟨Nat.le_trans inside.1 fit.1, Nat.le_trans fit.2 inside.2⟩

theorem fit_empty {m : Mbuf} (start : m.data = m.room.addr) (empty : m.len = 0) : m.Fit := by
  refine ⟨Nat.le_of_eq start.symm, ?_⟩
  rw [start, empty]
  exact Nat.le_add_right _ _

theorem fits_drop (fits : ∀ e ∈ first :: rest, e.Fit) : ∀ e ∈ first.dropPkthdr :: rest, e.Fit := by
  intro e member
  rcases List.mem_cons.mp member with rfl | member
  · exact fit_drop (fits first List.mem_cons_self)
  · exact fits e (List.mem_cons_of_mem _ member)

theorem addrs_perm (p : Nat) (chain : Chain) :
    (p :: chain.map Mbuf.addr).Perm (chain.map Mbuf.addr ++ [p]) := by
  have swapped : ([p] ++ chain.map Mbuf.addr).Perm (chain.map Mbuf.addr ++ [p]) := List.perm_append_comm
  exact swapped

theorem bad_pulledUp {len : Nat} (wf : Wf A P (chain ++ others)) :
    ∃ new P', bad A P chain = some (new, P') ∧ PulledUp P chain len new P' := by
  obtain ⟨P', freed, _, result⟩ := wf.bad_frees
  refine ⟨[], P', freed, ⟨.inr ⟨rfl, [], _, by rw [result.taken]; rfl, result.freed, ?_⟩, fun _ => rfl⟩⟩
  rw [List.append_nil]
  exact List.reverse_perm _

section

variable {len : Nat} (wf : Wf A P (first :: rest ++ others)) (fits : ∀ e ∈ first :: rest, e.Fit)
  (small : len < 2^32)

include fits small

omit fits small in
theorem fresh_headed {k : Kmem.State} {p : Nat} (flagged : first.flags.pkthdr = true) (short : len ≤ mhlen)
    (wf₁ : Wf A (took P k p first.type)
      (initial (P.stale p) p first.type false :: (first :: rest ++ others))) :
    Wf A (took P k p first.type)
        (copyPkthdr { initial (P.stale p) p first.type false with len := 0 } first ::
          (first.dropPkthdr :: rest ++ others)) ∧
      (copyPkthdr { initial (P.stale p) p first.type false with len := 0 } first).Fit ∧
      (copyPkthdr { initial (P.stale p) p first.type false with len := 0 } first).tail +
        min len (total (first.dropPkthdr :: rest)) ≤
        (copyPkthdr { initial (P.stale p) p first.type false with len := 0 } first).datEnd := by
  have moved : Wf A (took P k p first.type)
      (copyPkthdr { initial (P.stale p) p first.type false with len := 0 } first ::
        (first :: rest ++ others)) := wf₁.adjust rfl rfl rfl nofun
  have start : (copyPkthdr { initial (P.stale p) p first.type false with len := 0 } first).room =
      ⟨p + sizeofMHdr + sizeofPkthdr, mhlen⟩ := by
    simp only [Mbuf.room, copyPkthdr, Flags.copied, flagged, Bool.false_eq_true, if_false, if_true]
    rfl
  refine ⟨moved.adjust_second rfl rfl rfl (fun _ => rfl), fit_empty (by rw [start]; rfl) rfl, ?_⟩
  simp only [Mbuf.tail, copyPkthdr, Mbuf.datEnd, Mbuf.pktdat, initial, mhlen, mlen, msize, sizeofMHdr,
    sizeofPkthdr] at *
  omega

omit fits small in
theorem fresh_plain {k : Kmem.State} {p : Nat} (short : len ≤ mhlen)
    (wf₁ : Wf A (took P k p first.type)
      (initial (P.stale p) p first.type false :: (first :: rest ++ others))) :
    Wf A (took P k p first.type)
        ({ initial (P.stale p) p first.type false with len := 0 } :: (first :: rest ++ others)) ∧
      Mbuf.Fit { initial (P.stale p) p first.type false with len := 0 } ∧
      Mbuf.tail { initial (P.stale p) p first.type false with len := 0 } +
        min len (total (first :: rest)) ≤
        Mbuf.datEnd { initial (P.stale p) p first.type false with len := 0 } := by
  refine ⟨wf₁.adjust rfl rfl rfl nofun, fit_empty rfl rfl, ?_⟩
  simp only [Mbuf.tail, Mbuf.datEnd, initial, mhlen, mlen, msize, sizeofMHdr, sizeofPkthdr,
    Bool.false_eq_true, if_false] at *
  omega

theorem pullup_fresh {k : Kmem.State} {p : Nat} (short : len ≤ mhlen)
    (wf₁ : Wf A (took P k p first.type)
      (initial (P.stale p) p first.type false :: (first :: rest ++ others))) :
    ∃ fuel new P', (if first.flags.pkthdr then
        pullupRun A 0 fuel (took P k p first.type)
          (copyPkthdr { initial (P.stale p) p first.type false with len := 0 } first)
          (first.dropPkthdr :: rest) len
      else pullupRun A 0 fuel (took P k p first.type)
        { initial (P.stale p) p first.type false with len := 0 } (first :: rest) len) = some (new, P') ∧
      PulledUp P (first :: rest) len new P' := by
  by_cases flagged : first.flags.pkthdr = true
  · obtain ⟨wf₂, fit, room⟩ := fresh_headed flagged short wf₁
    obtain ⟨fuel, new, P', run, settled⟩ := pullupRun_settles wf₂ rfl fit (fits_drop fits) small room
    refine ⟨fuel, new, P', by simp only [flagged, if_true]; exact run, ?_⟩
    exact settled.pulledUp [p] rfl rfl rfl (addrs_perm p (first :: rest)) (Nat.le_add_left _ _)
  · obtain ⟨wf₂, fit, room⟩ := fresh_plain short wf₁
    obtain ⟨fuel, new, P', run, settled⟩ := pullupRun_settles wf₂ rfl fit fits small room
    refine ⟨fuel, new, P', by simp only [flagged]; exact run, ?_⟩
    exact settled.pulledUp [p] rfl rfl rfl (addrs_perm p (first :: rest)) (Nat.le_add_left _ _)

include wf

theorem pullup_answers (free : ¬ Stuck (first :: rest) len) :
    ∃ fuel new P', mbufPullup A 0 fuel P (first :: rest) len = some (new, P') ∧
      PulledUp P (first :: rest) len new P' := by
  by_cases place : InPlace first len
  · have test : ¬ first.flags.ext ∧ wrap (first.data + len) < first.datEnd := by
      simpa [InPlace] using place
    obtain ⟨fuel, new, P', run, settled⟩ := @pullupRun_settles A P others first rest
      (len - min len first.len) wf place.1 (fits first List.mem_cons_self)
      (fun e member => fits e (List.mem_cons_of_mem _ member)) (by omega)
      (by simp only [Stuck, place, true_and] at free; omega)
    refine ⟨fuel, new, P', by simp only [mbufPullup]; rw [if_pos test]; exact run, ?_⟩
    exact settled.pulledUp [] rfl rfl rfl (by rw [List.append_nil]) (by omega)
  · have test : ¬ (¬ first.flags.ext ∧ wrap (first.data + len) < first.datEnd) := by
      simpa [InPlace] using place
    by_cases long : len > mhlen
    · obtain ⟨new, P', freed, done⟩ := @bad_pulledUp _ _ _ _ len wf
      exact ⟨0, new, P', by simp only [mbufPullup]; rw [if_neg test, if_pos long]; exact freed, done⟩
    · rcases wf.take (wf.types first (by simp)) false with ⟨_, failed⟩ | ⟨p, k, _, _, given, wf₁⟩
      · obtain ⟨new, P', freed, done⟩ := @bad_pulledUp _ _ _ _ len wf
        refine ⟨0, new, P', ?_, done⟩
        simp only [mbufPullup, mbufGet, failed]
        rw [if_neg test, if_neg long]
        exact freed
      · obtain ⟨fuel, new, P', run, done⟩ := pullup_fresh fits small (by omega) wf₁
        refine ⟨fuel, new, P', ?_, done⟩
        simp only [mbufPullup, mbufGet, given]
        rw [if_neg test, if_neg long]
        exact run

theorem pullup_hangs (stuck : Stuck (first :: rest) len) (fuel : Nat) :
    mbufPullup A 0 fuel P (first :: rest) len = none := by
  obtain ⟨place, beyond⟩ := stuck
  have test : ¬ first.flags.ext ∧ wrap (first.data + len) < first.datEnd := by
    simpa [InPlace] using place
  simp only [mbufPullup]
  rw [if_pos test]
  exact pullupRun_stuck wf place.1 (fits first List.mem_cons_self)
    (fun e member => fits e (List.mem_cons_of_mem _ member)) (by omega) beyond fuel

end

section

variable {m : Mbuf} {n : Chain} {len : Nat} (wf : Wf A P (m :: (n ++ others))) (fit : m.Fit)
  (fits : ∀ e ∈ n, e.Fit) (small : len < 2^32)

include wf fit fits small

theorem pullupBigRun_settles (room : m.tail + min len (total n) ≤ m.room.stop)
    (ahead : Ahead m.tail len n) :
    ∃ fuel new P', pullupBigRun A fuel P m n len = some (new, P') ∧
      Settled P (m :: n) (m.len + len) new P' := by
  have going : Going A others Pulling.len ⟨P, m, n, len, 0⟩ :=
    ⟨⟨wf, fit, fits, room⟩, small, Nat.two_pow_pos 32⟩
  exact finish_answers steady_len going (Nat.min_le_left _ _) ahead

theorem pullupBigRun_overruns (beyond : m.room.stop < m.tail + min len (total n)) (fuel : Nat) :
    pullupBigRun A fuel P m n len = none := by
  have never : loop (pullPass A Pulling.len) fuel ⟨P, m, n, len, 0⟩ = none := by
    apply loop_never_leaves (fun t : Pulling => Wf A t.pool (t.m :: (t.n ++ others)) ∧ t.m.Fit ∧
      (∀ e ∈ t.n, e.Fit) ∧ t.len < 2^32 ∧ t.m.room.stop < t.m.tail + min t.len (total t.n))
    · rintro t ⟨wf, fit, fits, small, beyond⟩
      cases nodes : t.n with
      | nil =>
        have := fit.2
        rw [nodes] at beyond
        simp only [Mbuf.tail, total, List.map_nil, List.sum_nil, Nat.min_zero] at beyond
        omega
      | cons first rest =>
        have more : t.len ≠ 0 := by
          have := fit.2
          simp only [Mbuf.tail] at beyond
          omega
        by_cases inside : t.m.tail + min t.len first.len ≤ t.m.room.stop
        · right
          have moving : Moving A others t (min t.len first.len) := by
            refine ⟨wf, fit, fits, ?_⟩
            rw [nodes, total_cons]
            omega
          obtain ⟨t', step, pulled, moved⟩ := moving.pull nodes
          have count : min (min t.len first.len) first.len = min t.len first.len := by omega
          rw [count] at step pulled
          refine ⟨t', ?_, moved.wf, moved.fit, moved.fits, ?_, ?_⟩
          · simp only [pullPass, nodes, more, if_false, step]
          · rw [pulled.len]
            exact wrap_lt _
          · have room : t'.m.room = t.m.room := by
              rw [pulled.m]
              rfl
            rw [room, pulled.len, pulled.n, total_behind (Nat.min_le_right _ _), ← nodes,
              wsub_of_le (Nat.min_le_left _ _) small, pulled.m]
            simp only [Mbuf.tail] at beyond ⊢
            omega
        · left
          have refused : t.pool.fill t.m first.data (t.m.data + t.m.len) (min t.len first.len) = none := by
            apply if_neg
            have := fit.2
            simp only [Mbuf.tail] at inside
            omega
          simp only [pullPass, nodes, more, if_false, pull, refused]
    · exact ⟨wf, fit, fits, small, beyond⟩
  simp only [pullupBigRun, never]

end

/-- `mbuf_get` and `mbuf_getext` will find a cluster for a fresh mbuf, with its count inside the
    table, or none at all and no leftover pointer in the block. -/
def Supplied (A : Arena) (P : Pool) : Prop :=
  (kmemMalloc A P.kmem msize).1 = 0 ∨ P.mclfree ≠ 0 ∨
    (kmemMalloc A P.kmem msize).2.kmemoffs + pageSize ≤ refEntries * mclBytes ∨
    (kmemSize < (kmemMalloc A P.kmem msize).2.kmemoffs + pageSize ∧
      (P.stale (kmemMalloc A P.kmem msize).1).ext.meBuf = 0)

theorem Supplied.getext {type p : Nat} {k : Kmem.State} {live : List Mbuf} (supplied : Supplied A P)
    (call : kmemMalloc A P.kmem msize = (p, k)) (nonzero : p ≠ 0)
    (wf : Wf A (took P k p type) (initial (P.stale p) p type false :: live)) :
    (∃ c P', mbufGetext A (took P k p type) (initial (P.stale p) p type false) =
        some (0, (initial (P.stale p) p type false).extend c, P') ∧
      Wf A P' ((initial (P.stale p) p type false).extend c :: live) ∧
      Calm (took P k p type) P' (initial (P.stale p) p type false :: live) ∧
      P'.taken = (took P k p type).taken ∧ P'.freed = (took P k p type).freed ∧
      ∀ e ∈ live, e.holds c = false) ∨
    mbufGetext A (took P k p type) (initial (P.stale p) p type false) =
      some (1, initial (P.stale p) p type false, took P k p type) := by
  simp only [Supplied, call] at supplied
  have carvable : Carvable (took P k p type) := by
    rcases supplied with zero | some | reach | ⟨full, _⟩
    · exact absurd zero nonzero
    · exact .inl some
    · exact .inr (.inl reach)
    · exact .inr (.inr full)
  rcases wf.getext rfl carvable with given | ⟨none, full, got⟩
  · exact .inl given
  · have clean : (P.stale p).ext.meBuf = 0 := by
      rcases supplied with zero | some | reach | ⟨_, clean⟩
      · exact absurd zero nonzero
      · exact absurd none some
      · simp only [took] at full
        simp only [refEntries, refTable, mclBytes, mclShift, sizeofLong, kmemSize, Kmem.clBytes,
          pageSize] at *
        omega
      · exact clean
    rw [if_pos (show (initial (P.stale p) p type false).ext.meBuf = 0 from clean)] at got
    exact .inr got

/-- What `mbuf_pullup_big` relies on: in place, that the bytes moved stay inside the cluster and
    overwrite no later data of the chain; else, that a cluster can be had. -/
def Pullable (A : Arena) (P : Pool) : Chain → Nat → Prop
  | [], _ => True
  | first :: rest, len =>
    (len ≤ mhlen → ¬ Stuck (first :: rest) len) ∧
    (mhlen < len → InPlaceBig first len →
      first.tail + min (len - min len first.len) (total rest) ≤ first.room.stop ∧
      Ahead first.tail (len - min len first.len) rest) ∧
    (mhlen < len → ¬ InPlaceBig first len → len ≤ mclBytes → Supplied A P)

section

variable {len : Nat} (wf : Wf A P (first :: rest ++ others)) (fits : ∀ e ∈ first :: rest, e.Fit)
  (small : len < 2^32)

include fits small

def Mbuf.headCluster (m first : Mbuf) (c : Nat) : Mbuf :=
  { m.extend c with
    len := 0, pkthdr := first.pkthdr, flags := { first.flags.copied with ext := true } }

omit fits small in
theorem cluster_ready {P₂ : Pool} {m : Mbuf} {c : Nat}
    (wf₂ : Wf A P₂ (m.extend c :: (first :: rest ++ others)))
    (free : ∀ e ∈ first :: rest ++ others, e.holds c = false) :
    Wf A P₂ (m.headCluster first c :: (first.dropPkthdr :: rest ++ others)) ∧
      Wf A P₂ ({ m.extend c with len := 0 } :: (first :: rest ++ others)) ∧
      (∀ e ∈ first :: rest ++ others, Region.Apart e.room (cluster c)) ∧
      (∀ e ∈ first.dropPkthdr :: rest, Region.Apart e.room (cluster c)) := by
  have carved : c ∈ P₂.carved := (wf₂.exts (m.extend c) List.mem_cons_self rfl).1
  have moved : Wf A P₂ (m.headCluster first c :: (first :: rest ++ others)) :=
    wf₂.adjust rfl rfl rfl (fun _ => rfl)
  have wf₃ : Wf A P₂ (m.headCluster first c :: (first.dropPkthdr :: rest ++ others)) :=
    moved.adjust_second rfl rfl rfl (fun _ => rfl)
  have apart : ∀ e ∈ first :: rest ++ others, Region.Apart e.room (cluster c) := by
    intro e member
    exact wf₂.room_cluster (List.mem_cons_of_mem _ member) carved (free e member)
  refine ⟨wf₃, wf₂.adjust rfl rfl rfl (fun _ => rfl), apart, ?_⟩
  intro e member
  rcases List.mem_cons.mp member with rfl | member
  · apply wf₃.room_cluster (by simp) carved
    exact free first (by simp)
  · exact apart e (List.mem_append_left _ (List.mem_cons_of_mem _ member))

omit fits small in
theorem cluster_room (c : Nat) (n : Chain) (short : len ≤ mclBytes) :
    c + min len (total n) ≤ (cluster c).stop := by
  simp only [cluster, Region.stop]
  omega

theorem pullupBig_cluster {P₂ : Pool} {m : Mbuf} {c : Nat} (short : len ≤ mclBytes)
    (wf₂ : Wf A P₂ (m.extend c :: (first :: rest ++ others)))
    (free : ∀ e ∈ first :: rest ++ others, e.holds c = false) (calm : Calm P P₂ (first :: rest ++ others))
    (taken : P₂.taken = [m.addr] ++ P.taken) (freed : P₂.freed = P.freed) :
    ∃ fuel new P', (if first.flags.pkthdr then
        pullupBigRun A fuel P₂ (m.headCluster first c) (first.dropPkthdr :: rest) len
      else pullupBigRun A fuel P₂ { m.extend c with len := 0 } (first :: rest) len) = some (new, P') ∧
      PulledUp P (first :: rest) len new P' := by
  obtain ⟨wfH, wfP, apart, apartH⟩ := cluster_ready wf₂ free
  have data : flatten P₂.mem (first :: rest) = flatten P.mem (first :: rest) :=
    calm.flatten_eq (fun e member => List.mem_append_left _ member) fits
  by_cases flagged : first.flags.pkthdr = true
  · have room := cluster_room c (first.dropPkthdr :: rest) short
    obtain ⟨fuel, new, P', run, settled⟩ := @pullupBigRun_settles _ _ _ _ _ len wfH
      (fit_empty rfl rfl) (fits_drop fits) small room
      (@ahead_of_apart _ (cluster c) c len apartH (fits_drop fits) (Nat.le_refl _) room)
    refine ⟨fuel, new, P', by simp only [flagged, if_true]; exact run, ?_⟩
    exact settled.pulledUp [m.addr] data taken freed (addrs_perm m.addr (first :: rest)) (Nat.le_add_left _ _)
  · have room := cluster_room c (first :: rest) short
    obtain ⟨fuel, new, P', run, settled⟩ := @pullupBigRun_settles _ _ _ _ _ len wfP
      (fit_empty rfl rfl) fits small room
      (@ahead_of_apart _ (cluster c) c len (fun e member => apart e (List.mem_append_left _ member)) fits
        (Nat.le_refl _) room)
    refine ⟨fuel, new, P', by simp only [flagged]; exact run, ?_⟩
    exact settled.pulledUp [m.addr] data taken freed (addrs_perm m.addr (first :: rest)) (Nat.le_add_left _ _)

include wf

theorem pullupBig_answers (pullable : Pullable A P (first :: rest) len) :
    ∃ fuel new P', mbufPullupBig A 0 fuel P (first :: rest) len = some (new, P') ∧
      PulledUp P (first :: rest) len new P' := by
  obtain ⟨easy, window, supply⟩ := pullable
  by_cases little : len ≤ mhlen
  · obtain ⟨fuel, new, P', run, done⟩ := pullup_answers wf fits small (easy little)
    exact ⟨fuel, new, P', by rw [mbufPullupBig, if_pos little]; exact run, done⟩
  have large : mhlen < len := by omega
  by_cases place : InPlaceBig first len
  · obtain ⟨room, ahead⟩ := window large place
    obtain ⟨fuel, new, P', run, settled⟩ := @pullupBigRun_settles A P others first rest
      (len - min len first.len) wf (fits first List.mem_cons_self)
      (fun e member => fits e (List.mem_cons_of_mem _ member)) (by omega) room ahead
    refine ⟨fuel, new, P', ?_, ?_⟩
    · rw [mbufPullupBig, if_neg little]
      exact (if_pos place).trans run
    · exact settled.pulledUp [] rfl rfl rfl (by rw [List.append_nil]) (by omega)
  have test : ¬ (first.flags.ext = true ∧ wrap (first.data + len) < first.ext.meBuf + mclBytes) := place
  by_cases long : len > mclBytes
  · obtain ⟨new, P', freed, done⟩ := @bad_pulledUp _ _ _ _ len wf
    refine ⟨0, new, P', ?_, done⟩
    rw [mbufPullupBig, if_neg little, if_neg test, if_pos long]
    exact freed
  rcases wf.take (wf.types first (by simp)) false with ⟨_, failed⟩ | ⟨p, k, call, nonzero, given, wf₁⟩
  · obtain ⟨new, P', freed, done⟩ := @bad_pulledUp _ _ _ _ len wf
    refine ⟨0, new, P', ?_, done⟩
    simp only [mbufPullupBig, mbufGet, failed]
    rw [if_neg little, if_neg test, if_neg long]
    exact freed
  have calm₁ := took_calm P k p first.type (first :: rest ++ others)
  rcases (supply large place (by omega)).getext call nonzero wf₁ with
    ⟨c, P₂, got, wf₂, calm₂, taken, freed, unheld⟩ | got
  · obtain ⟨fuel, new, P', run, done⟩ := pullupBig_cluster (P := P) fits small (by omega) wf₂ unheld
      (calm₁.trans (calm₂.mono (fun e member => List.mem_cons_of_mem _ member)) (fun _ h => h)) taken freed
    refine ⟨fuel, new, P', ?_, done⟩
    simp only [mbufPullupBig, mbufGet, given, got, ne_eq, not_true_eq_false, if_false]
    rw [if_neg little, if_neg test, if_neg long]
    exact run
  · obtain ⟨P₂, freed, wf₂, result₂⟩ := wf₁.free
    obtain ⟨P₃, freedAll, _, result₃⟩ := wf₂.bad_frees
    refine ⟨0, [], P₃, ?_, ⟨.inr ⟨rfl, [p], ((first :: rest).map Mbuf.addr).reverse ++ [p], ?_, ?_, ?_⟩,
      fun _ => rfl⟩⟩
    · simp only [mbufPullupBig, mbufGet, given, got, ne_eq, one_ne_zero, not_false_eq_true, if_true, freed]
      rw [if_neg little, if_neg test, if_neg long]
      exact freedAll
    · rw [result₃.taken, result₂.taken]
      rfl
    · rw [result₃.freed, result₂.freed]
      simp [took, initial]
    · exact (List.reverse_perm _).append_right [p]

/-- The ways `mbuf_pullup_big` runs into a write or a count outside its memory, or never ends. -/
def Faulty (A : Arena) (P : Pool) : Chain → Nat → Prop
  | [], _ => False
  | first :: rest, len =>
    (len ≤ mhlen ∧ Stuck (first :: rest) len) ∨
    (mhlen < len ∧ InPlaceBig first len ∧
      first.room.stop < first.tail + min (len - min len first.len) (total rest)) ∨
    (mhlen < len ∧ ¬ InPlaceBig first len ∧ len ≤ mclBytes ∧ (kmemMalloc A P.kmem msize).1 ≠ 0 ∧
      P.mclfree = 0 ∧ refEntries * mclBytes < (kmemMalloc A P.kmem msize).2.kmemoffs + pageSize ∧
      (kmemMalloc A P.kmem msize).2.kmemoffs + pageSize ≤ kmemSize)

theorem pullupBig_fails (faulty : Faulty A P (first :: rest) len) (fuel : Nat) :
    mbufPullupBig A 0 fuel P (first :: rest) len = none := by
  rcases faulty with ⟨little, stuck⟩ | ⟨large, place, beyond⟩
    | ⟨large, away, bound, granted, none, reach, room⟩
  · rw [mbufPullupBig, if_pos little]
    exact pullup_hangs wf fits small stuck fuel
  · rw [mbufPullupBig, if_neg (by omega)]
    refine (if_pos place).trans ?_
    exact pullupBigRun_overruns wf (fits first List.mem_cons_self)
      (fun e member => fits e (List.mem_cons_of_mem _ member)) (by omega) beyond fuel
  · have test : ¬ (first.flags.ext = true ∧ wrap (first.data + len) < first.ext.meBuf + mclBytes) := away
    rcases wf.take (wf.types first (by simp)) false with ⟨zero, _⟩ | ⟨p, k, call, nonzero, given, wf₁⟩
    · exact absurd zero granted
    · simp only [call] at reach room
      have high : refEntries * mclBytes ≤ k.kmemoffs := by
        rcases wf₁.placed.take_page with ⟨_, full⟩ | ⟨_, _, whole, _⟩
        · simp only [took] at full
          omega
        · simp only [took, refEntries, refTable, mclBytes, mclShift, sizeofLong, kmemSize, Kmem.clBytes,
            pageSize] at *
          omega
      have outside := @getext_outside A (took P k p first.type) _ (initial (P.stale p) p first.type false)
        wf₁ none high room
      simp only [mbufPullupBig, mbufGet, given, outside]
      rw [if_neg (by omega), if_neg test, if_neg (by omega)]

end

/-- `mbuf_pullup` keeps the packet or frees it exactly when it does not hang; `mbuf_pullup_big` does
    under the conditions of `Pullable`, and returns nothing under those of `Faulty`. -/
theorem pullup_keeps_or_frees {len : Nat} (wf : Wf A P (chain ++ others)) (fits : ∀ e ∈ chain, e.Fit)
    (small : len < 2^32) :
    ((∃ fuel new P', mbufPullup A 0 fuel P chain len = some (new, P') ∧ PulledUp P chain len new P') ↔
      ¬ Stuck chain len) ∧
    (Pullable A P chain len →
      ∃ fuel new P', mbufPullupBig A 0 fuel P chain len = some (new, P') ∧ PulledUp P chain len new P') ∧
    (Faulty A P chain len →
      ¬ ∃ fuel new P', mbufPullupBig A 0 fuel P chain len = some (new, P') ∧
        PulledUp P chain len new P') := by
  cases chain with
  | nil =>
    have same : PulledUp P [] len [] P := ⟨.inr ⟨rfl, [], [], rfl, rfl, List.Perm.refl _⟩, fun _ => rfl⟩
    exact ⟨⟨fun _ stuck => stuck, fun _ => ⟨0, [], P, rfl, same⟩⟩, fun _ => ⟨0, [], P, rfl, same⟩, False.elim⟩
  | cons first rest =>
    refine ⟨⟨?_, pullup_answers wf fits small⟩, pullupBig_answers wf fits small, ?_⟩
    · rintro ⟨fuel, new, P', returned, _⟩ stuck
      rw [pullup_hangs wf fits small stuck fuel] at returned
      cases returned
    · rintro faulty ⟨fuel, new, P', returned, _⟩
      rw [pullupBig_fails wf fits small faulty fuel] at returned
      cases returned

abbrev nextGet : Option Mbuf × Pool := mbufTake Kmem.board firstGet.2 2 false
abbrev before (n : Nat) : Mbuf := { mbufOf firstGet with len := n }
abbrev single : Mbuf := { mbufOf nextGet with len := 1 }

theorem pair_rooms :
    nextGet.1.isSome = true ∧ [single, mbufOf firstGet].erase (mbufOf firstGet) = [single] ∧
      ((before 0).room.addr ≤ (before 0).data ∧ (before 0).data + 108 ≤ (before 0).room.stop) ∧
      single.room.addr ≤ single.data ∧ single.data + 1 ≤ single.room.stop := by
  decide +kernel

theorem pair_wf (n : Nat) : Wf Kmem.board nextGet.2 [before n, single] := by
  obtain ⟨given, erased, -⟩ := pair_rooms
  have get₂ := firstGet_reachable.get (@get_eq nextGet given)
  have edit₁ := @Reachable.edit_head _ _ _ _ _ single get₂ rfl rfl rfl rfl
  have edit₂ := @Reachable.edit _ _ _ _ (mbufOf firstGet) (before n) edit₁ (by simp) rfl rfl rfl rfl
  rw [erased] at edit₂
  exact edit₂.wf

theorem pair_fits {n : Nat} (short : n ≤ 108) : ∀ e ∈ [before n, single], e.Fit := by
  obtain ⟨-, -, ⟨low, high⟩, second⟩ := pair_rooms
  rw [List.forall_mem_cons, List.forall_mem_singleton]
  exact ⟨⟨low, (Nat.add_le_add_left short _).trans high⟩, second⟩

theorem pullup_keeps_first :
    ∃ fuel new P', mbufPullup Kmem.board 0 fuel nextGet.2 [before 60, single] 61 = some (new, P') ∧
      PulledUp nextGet.2 [before 60, single] 61 new P' := by
  apply (@pullup_keeps_or_frees Kmem.board nextGet.2 [] [before 60, single] 61 (pair_wf 60)
    (pair_fits (by decide)) (by decide)).1.mpr
  simp only [Stuck, InPlace]
  decide +kernel

/-- A length of 2 GB, and the loop never ends. -/
theorem pullup_never_ends :
    ¬ ∃ fuel new P', mbufPullup Kmem.board 0 fuel nextGet.2 [before 108, single] 0x80000000 = some (new, P') ∧
      PulledUp nextGet.2 [before 108, single] 0x80000000 new P' := by
  have wf : Wf Kmem.board nextGet.2 (before 108 :: [single] ++ []) := pair_wf 108
  have stuck : Stuck [before 108, single] 0x80000000 := by
    simp only [Stuck, InPlace]
    decide +kernel
  rintro ⟨fuel, new, P', returned, _⟩
  rw [pullup_hangs wf (pair_fits (Nat.le_refl 108)) (by decide) stuck fuel] at returned
  cases returned

end Embryo.Uipc
