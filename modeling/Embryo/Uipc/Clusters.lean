import Embryo.Uipc.Copy

namespace Embryo.Uipc

open Embryo.Machine
open Embryo.Kmem (Arena kmemMalloc kmemSize pageSize)

/-- The pool before `mbufinit`: its variables are zero, the arena is in use by others. -/
structure Blank (A : Arena) (P : Pool) : Prop where
  kmem : ∃ fixed held, Kmem.Reachable A (fun n => n + 4095 < 2^32) P.kmem fixed held
  mclfree : P.mclfree = 0
  freemcl : P.mbstats.freemcl = 0
  carved : P.carved = []

/-- The states after `mbufinit` and any calls on live mbufs. `ok` is asked of the pool whenever
    `mbuf_clalloc` may be called. Between the calls users set up and fill their mbufs, and
    freed blocks pass through other hands. -/
inductive Reachable (A : Arena) (ok : Pool → Prop) : Pool → List Mbuf → Prop
  | init {P P₁ P'} (blank : Blank A P) (table : initTable A P = some P₁) (allowed : ok P₁)
      (call : mbufinit A P = some (0, P')) : Reachable A ok P' []
  | get {P live type pkt m P'} (run : Reachable A ok P live)
      (call : mbufTake A P type pkt = (some m, P')) : Reachable A ok P' (m :: live)
  | getext {P live m m' P'} (run : Reachable A ok P live) (member : m ∈ live)
      (plain : m.flags.ext = false) (allowed : ok P)
      (room : P.mclfree ≠ 0 ∨ P.kmem.kmemoffs + pageSize ≤ kmemSize)
      (call : mbufGetext A P m = some (0, m', P')) : Reachable A ok P' (m' :: live.erase m)
  | copy {P live chain off0 len new P'} (run : Reachable A ok P live) (nonempty : chain ≠ [])
      (members : ∀ m ∈ chain, m ∈ live) (fit : ∀ m ∈ chain, m.Fit)
      (call : mbufCopy A P chain off0 len = some (new, P')) : Reachable A ok P' (new ++ live)
  | free {P live m P'} (run : Reachable A ok P live) (member : m ∈ live)
      (call : mbufFree A P m = some P') : Reachable A ok P' (live.erase m)
  | freem {P chain others P'} (run : Reachable A ok P (chain ++ others))
      (call : mbufFreem A P chain = some P') : Reachable A ok P' others
  | edit {P live m m'} (run : Reachable A ok P live) (member : m ∈ live) (addr : m'.addr = m.addr)
      (type : m'.type = m.type) (flag : m'.flags.ext = m.flags.ext) (ext : m'.ext = m.ext) :
      Reachable A ok P (m' :: live.erase m)
  | write {P live m mem} (run : Reachable A ok P live) (member : m ∈ live)
      (frame : ∀ x, ¬ (m.room.addr ≤ x ∧ x < m.room.stop) → mem x = P.mem x) :
      Reachable A ok { P with mem } live
  | scribble {P live stale} (run : Reachable A ok P live) : Reachable A ok { P with stale } live
  | order {P live live'} (run : Reachable A ok P live) (perm : live.Perm live') :
      Reachable A ok P live'

def Within16M (P : Pool) : Prop :=
  P.mclfree ≠ 0 ∨ P.kmem.kmemoffs + pageSize ≤ refEntries * mclBytes

variable {A : Arena} {P : Pool} {live : List Mbuf}

theorem Blank.table {P₁ : Pool} (blank : Blank A P) (table : initTable A P = some P₁) : Wf A P₁ [] := by
  obtain ⟨fixed, held, run⟩ := blank.kmem
  obtain ⟨chunks, regions, inv⟩ := run.inv (fun _ fits => fits)
  unfold initTable at table
  rcases inv.malloc (show refTable + 4095 < 2^32 by decide) with failed | ⟨p, k, given, served⟩
  · simp only [failed, if_true] at table
    cases table
  · obtain ⟨chunks', regions', after⟩ := served.inv
    simp only [given, served.nonzero, if_false, Option.some.injEq] at table
    subst table
    refine ⟨⟨[], fixed, ⟨p, refTable⟩ :: held, ⟨⟨_, _, after⟩, by simp, by simp⟩, ?_⟩, ?_, ?_, ?_,
      ⟨[], ?_, .nil, ?_, ?_⟩, nofun, nofun⟩
    · exact blank.carved
    · simp [blank.carved]
    · simp [blank.carved]
    · intro i less _
      simp only [if_pos less]
    · exact blank.mclfree
    · intro c
      simp [blank.carved]
    · exact blank.freemcl

theorem Blank.init {P₁ P' : Pool} (blank : Blank A P) (table : initTable A P = some P₁)
    (reach : Within16M P₁) (call : mbufinit A P = some (0, P')) : Wf A P' [] := by
  have wf := blank.table table
  simp only [mbufinit, table] at call
  rcases wf.placed.take_page with ⟨refused, full⟩ | ⟨_, room, _⟩
  · rw [mbufClalloc_fails refused] at call
    simp only [Option.some.injEq, Prod.mk.injEq] at call
    exact call.2 ▸ wf
  · have low : P₁.kmem.kmemoffs + pageSize ≤ refEntries * mclBytes := by
      have none : P₁.mclfree = 0 := by
        simp only [initTable] at table
        split at table
        · cases table
        · simp only [Option.some.injEq] at table
          rw [← table]
          exact blank.mclfree
      rcases reach with some | reach
      · exact absurd none some
      · exact reach
    obtain ⟨P₂, carved, wf₂, _⟩ := wf.carve room low
    rw [carved] at call
    simp only [Option.some.injEq, Prod.mk.injEq, true_and] at call
    exact call ▸ wf₂

theorem Reachable.wf (run : Reachable A Within16M P live) : Wf A P live := by
  induction run with
  | init blank table allowed call => exact blank.init table allowed call
  | @get P live type pkt m P' run call ih =>
    have bound : type < 256 := by
      by_contra large
      simp only [mbufTake, if_pos (show type ≥ 256 by omega), Prod.mk.injEq] at call
      cases call.1
    rcases ih.take bound pkt with ⟨_, failed⟩ | ⟨p, k, _, _, given, wf⟩
    · rw [failed, Prod.mk.injEq] at call
      cases call.1
    · rw [given, Prod.mk.injEq, Option.some.injEq] at call
      obtain ⟨rfl, rfl⟩ := call
      exact wf
  | getext run member plain allowed room call ih =>
    have wf := ih.perm (List.perm_cons_erase member)
    have carvable : Carvable _ := allowed.imp id Or.inl
    rcases wf.getext plain carvable with ⟨c, P', given, wf', _⟩ | ⟨none, full, _⟩
    · rw [given] at call
      simp only [Option.some.injEq, Prod.mk.injEq, true_and] at call
      obtain ⟨rfl, rfl⟩ := call
      exact wf'
    · rcases room with some | room
      · exact absurd none some
      · omega
  | @copy P live chain off0 len new P' run nonempty members fit call ih =>
    obtain ⟨first, rest, rfl⟩ := List.exists_cons_of_ne_nil nonempty
    obtain ⟨new', P'', copied, moved, _⟩ := ih.copy members fit off0 len
    rw [copied] at call
    simp only [Option.some.injEq, Prod.mk.injEq] at call
    obtain ⟨rfl, rfl⟩ := call
    exact moved.wf
  | free run member call ih =>
    obtain ⟨P', freed, wf, _⟩ := (ih.perm (List.perm_cons_erase member)).free
    rw [freed, Option.some.injEq] at call
    exact call ▸ wf
  | freem run call ih =>
    obtain ⟨P', freed, wf, _⟩ := ih.freem
    rw [freed, Option.some.injEq] at call
    exact call ▸ wf
  | edit run member addr type flag ext ih =>
    exact (ih.perm (List.perm_cons_erase member)).adjust addr type flag (fun _ => ext)
  | write run member frame ih => exact ih.write member frame
  | scribble run ih =>
    obtain ⟨nodes, free⟩ := ih.listed
    exact ⟨ih.placed, ih.tabled, ih.counted, ih.blank,
      ⟨nodes, free.linked, free.nodup, free.unused, free.freemcl⟩, ih.exts, ih.types⟩
  | order run perm ih => exact ih.perm perm

/-- Every count has its entry in the table and is right, and the free list is what it should be. -/
structure Counted (A : Arena) (P : Pool) (live : List Mbuf) : Prop where
  entries : ∀ c ∈ P.carved, mtocl A c < refEntries ∧ P.refcnt (mtocl A c) = holders live c
  list : ∃ nodes, FreeList P live nodes

structure Served (A : Arena) (ok : Pool → Prop) (P : Pool) (live : List Mbuf) : Prop where
  getext : ∀ m ∈ live, m.flags.ext = false → ok P →
    (P.mclfree ≠ 0 ∨ P.kmem.kmemoffs + pageSize ≤ kmemSize) →
    ∃ m' P', mbufGetext A P m = some (0, m', P')
  copy : ∀ chain, chain ≠ [] → (∀ m ∈ chain, m ∈ live) → (∀ m ∈ chain, m.Fit) → ∀ off0 len,
    ∃ new P', mbufCopy A P chain off0 len = some (new, P')
  free : ∀ m ∈ live, ∃ P', mbufFree A P m = some P'
  freem : ∀ chain others, live.Perm (chain ++ others) → ∃ P', mbufFreem A P chain = some P'

theorem Wf.served (wf : Wf A P live) : Served A Within16M P live := by
  constructor
  · intro m member plain allowed room
    rcases (wf.perm (List.perm_cons_erase member)).getext plain (allowed.imp id Or.inl) with
      ⟨c, P', given, _⟩ | ⟨none, full, _⟩
    · exact ⟨_, _, given⟩
    · rcases room with some | room
      · exact absurd none some
      · omega
  · intro chain nonempty members fit off0 len
    obtain ⟨first, rest, rfl⟩ := List.exists_cons_of_ne_nil nonempty
    obtain ⟨new, P', copied, _⟩ := wf.copy members fit off0 len
    exact ⟨new, P', copied⟩
  · intro m member
    obtain ⟨P', freed, _⟩ := (wf.perm (List.perm_cons_erase member)).free
    exact ⟨P', freed⟩
  · intro chain others perm
    obtain ⟨P', freed, _⟩ := (wf.perm perm).freem
    exact ⟨P', freed⟩

/-- Reference counts are right in every run that carves no cluster beyond the table's reach. -/
theorem cluster_counts (run : Reachable A Within16M P live) :
    Counted A P live ∧ Served A Within16M P live :=
  ⟨⟨fun c member => ⟨run.wf.tabled c member, run.wf.counted c member⟩, run.wf.listed⟩, run.wf.served⟩

theorem Reachable.mono {ok ok' : Pool → Prop} (run : Reachable A ok P live)
    (weaker : ∀ P, ok P → ok' P) : Reachable A ok' P live := by
  induction run with
  | init blank table allowed call => exact .init blank table (weaker _ allowed) call
  | get run call ih => exact .get ih call
  | getext run member plain allowed room call ih =>
    exact .getext ih member plain (weaker _ allowed) room call
  | copy run nonempty members fit call ih => exact .copy ih nonempty members fit call
  | free run member call ih => exact .free ih member call
  | freem run call ih => exact .freem ih call
  | edit run member addr type flag ext ih => exact .edit ih member addr type flag ext
  | write run member frame ih => exact .write ih member frame
  | scribble run ih => exact .scribble ih
  | order run perm ih => exact .order ih perm

theorem kmemMalloc_pops {k : Kmem.State} (some : (k.buckets 7).kbNext ≠ 0) :
    kmemMalloc A k msize = Kmem.pop k 7 := by
  have index : Kmem.bucketIndex msize = 7 := by decide
  have small : msize ≤ Kmem.maxAllocSave := by decide
  simp only [Kmem.kmemMalloc_eq, small, if_true, index, some, if_false]

theorem kmemMalloc_refills {k : Kmem.State} (none : (k.buckets 7).kbNext = 0)
    (room : k.kmemoffs + pageSize ≤ kmemSize) :
    (kmemMalloc A k msize).1 ≠ 0 ∧ (kmemMalloc A k msize).2.kmemoffs = k.kmemoffs + pageSize := by
  have index : Kmem.bucketIndex msize = 7 := by decide
  have small : msize ≤ Kmem.maxAllocSave := by decide
  have cluster : Kmem.roundCluster (2^7) = pageSize := by decide
  have nonzero : A.kmembase + k.kmemoffs ≠ 0 := by
    have := A.positive
    omega
  simp only [Kmem.kmemMalloc_eq, small, if_true, index, none, cluster,
    Kmem.kmemAlloc_grants (A := A) rfl room,
    nonzero, if_false]
  refine ⟨?_, rfl⟩
  simpa only [Kmem.pop, Kmem.refill, Function.update_self] using nonzero

theorem Wf.advance {ok : Pool → Prop} {nodes : List Nat} (wf : Wf A P live) (run : Reachable A ok P live)
    (linked : Linked P.kmem.next (P.kmem.buckets 7).kbNext nodes)
    (room : P.kmem.kmemoffs + pageSize ≤ kmemSize) :
    ∃ P' more, Reachable A ok P' (more ++ live) ∧ Wf A P' (more ++ live) ∧
      P'.kmem.kmemoffs = P.kmem.kmemoffs + pageSize ∧ P'.mclfree = P.mclfree := by
  induction nodes generalizing P live with
  | nil =>
    obtain ⟨nonzero, offs⟩ := kmemMalloc_refills (A := A) linked room
    rcases @Wf.take A P live wf 2 (by decide) false with ⟨zero, _⟩ | ⟨p, k, taken, _, call, wf'⟩
    · exact absurd zero nonzero
    · rw [taken] at offs
      exact ⟨_, [_], run.get call, wf', offs, rfl⟩
  | cons a nodes ih =>
    have some : (P.kmem.buckets 7).kbNext ≠ 0 := by
      rw [linked.1]
      exact linked.2.1
    have given := kmemMalloc_pops (A := A) some
    rcases @Wf.take A P live wf 2 (by decide) false with ⟨zero, _⟩ | ⟨p, k, taken, _, call, wf'⟩
    · rw [given] at zero
      exact absurd zero some
    · rw [given] at taken
      simp only [Kmem.pop, Prod.mk.injEq] at taken
      obtain ⟨rfl, rfl⟩ := taken
      obtain ⟨P', more, run', wf'', offs, first⟩ := ih wf' (run.get call) (by
        simp only [took, Function.update_self]
        rw [linked.1]
        exact linked.2.2) room
      rw [List.append_cons] at run' wf''
      exact ⟨P', _, run', wf'', offs, first⟩

theorem Wf.mbufs_linked (wf : Wf A P live) :
    ∃ nodes, Linked P.kmem.next (P.kmem.buckets 7).kbNext nodes := by
  obtain ⟨pages, fixed, foreign, laid, _⟩ := wf.placed
  obtain ⟨chunks, regions, inv⟩ := laid.kmem
  exact ⟨_, inv.linked 7 (by decide)⟩

theorem Wf.advance_pages {ok : Pool → Prop} (wf : Wf A P live) (run : Reachable A ok P live) (count : Nat)
    (room : P.kmem.kmemoffs + count * pageSize ≤ kmemSize) :
    ∃ P' more, Reachable A ok P' (more ++ live) ∧ Wf A P' (more ++ live) ∧
      P'.kmem.kmemoffs = P.kmem.kmemoffs + count * pageSize ∧ P'.mclfree = P.mclfree := by
  induction count with
  | zero => exact ⟨P, [], run, wf, by simp, rfl⟩
  | succ count ih =>
    have step : (count + 1) * pageSize = count * pageSize + pageSize := Nat.succ_mul count pageSize
    obtain ⟨P₁, more₁, run₁, wf₁, offs₁, first₁⟩ := ih (by omega)
    obtain ⟨nodes, linked⟩ := wf₁.mbufs_linked
    obtain ⟨P₂, more₂, run₂, wf₂, offs₂, first₂⟩ := wf₁.advance run₁ linked (by omega)
    rw [← List.append_assoc] at run₂ wf₂
    exact ⟨P₂, _, run₂, wf₂, by omega, by rw [first₂, first₁]⟩

theorem getext_outside {m : Mbuf} (wf : Wf A P live) (none : P.mclfree = 0)
    (reach : refEntries * mclBytes ≤ P.kmem.kmemoffs) (room : P.kmem.kmemoffs + pageSize ≤ kmemSize) :
    mbufGetext A P m = Option.none := by
  rcases wf.placed.take_page with ⟨_, full⟩ | ⟨given, _, whole, placed⟩
  · omega
  · have base := A.positive
    have fits := A.fits
    have carved := mbufClalloc_eq given (by omega)
    have outside : ¬ mtocl A (A.kmembase + P.kmem.kmemoffs + mclBytes) < refEntries := by
      simp only [mtocl, refEntries, refTable, sizeofLong, mclBytes, mclShift, pageSize, kmemSize,
        Kmem.clBytes] at *
      rw [wsub_of_le (by omega) (by omega)]
      omega
    have nonzero : A.kmembase + P.kmem.kmemoffs + mclBytes ≠ 0 := by omega
    have failed : mclalloc A P = Option.none := by
      simp only [mclalloc, none, if_true, carved, grown, nonzero, ne_eq, not_false_eq_true, Pool.count,
        if_neg outside]
    simp only [mbufGetext, failed]

def bootPool : Pool where
  kmem := Kmem.booted
  mem := fun _ => 0
  stale := fun _ => ⟨0, ⟨0, 0⟩, ⟨0, 0, 0, 0⟩⟩
  mclrefcnt := 0
  refcnt := fun _ => 0
  mclfree := 0
  mbstats := ⟨0, 0, fun _ => 0⟩
  carved := []
  taken := []
  freed := []

theorem bootPool_blank : Blank Kmem.board bootPool := by
  refine ⟨⟨[Kmem.table Kmem.board], [], ?_⟩, rfl, rfl, rfl⟩
  exact .start (show Kmem.kmeminit Kmem.board (fun _ => ⟨0, 0⟩) (fun _ => 0) = (_, Kmem.booted) from rfl)

theorem Reachable.edit_head {ok : Pool → Prop} {m m' : Mbuf} (run : Reachable A ok P (m :: live))
    (addr : m'.addr = m.addr)
    (type : m'.type = m.type) (flag : m'.flags.ext = m.flags.ext) (ext : m'.ext = m.ext) :
    Reachable A ok P (m' :: live) := by
  have edited := run.edit List.mem_cons_self addr type flag ext
  rwa [List.erase_cons_head] at edited

theorem Reachable.getext_head {ok : Pool → Prop} {m m' : Mbuf} {P' : Pool}
    (run : Reachable A ok P (m :: live)) (plain : m.flags.ext = false) (allowed : ok P)
    (room : P.mclfree ≠ 0 ∨ P.kmem.kmemoffs + pageSize ≤ kmemSize)
    (call : mbufGetext A P m = some (0, m', P')) : Reachable A ok P' (m' :: live) := by
  have extended := run.getext List.mem_cons_self plain allowed room call
  rwa [List.erase_cons_head] at extended

def mbufOf (call : Option Mbuf × Pool) : Mbuf :=
  call.1.getD (initial ⟨0, ⟨0, 0⟩, ⟨0, 0, 0, 0⟩⟩ 0 0 false)

abbrev tabled : Pool := (initTable Kmem.board bootPool).getD bootPool
abbrev started : Pool := ((mbufinit Kmem.board bootPool).getD (1, bootPool)).2
abbrev firstGet : Option Mbuf × Pool := mbufTake Kmem.board started 2 false
abbrev firstExt : Nat × Mbuf × Pool :=
  (mbufGetext Kmem.board firstGet.2 (mbufOf firstGet)).getD (1, mbufOf firstGet, firstGet.2)
abbrev secondGet : Option Mbuf × Pool := mbufTake Kmem.board firstExt.2.2 2 false
abbrev secondExt : Nat × Mbuf × Pool :=
  (mbufGetext Kmem.board secondGet.2 (mbufOf secondGet)).getD (1, mbufOf secondGet, secondGet.2)
abbrev thirdGet : Option Mbuf × Pool := mbufTake Kmem.board secondExt.2.2 2 false

theorem some_getD {α : Type} {o : Option α} {d : α} (ended : o.isSome = true) : o = some (o.getD d) := by
  cases o with
  | none => cases ended
  | some a => rfl

theorem ext_eq {o : Option (Nat × Mbuf × Pool)} {d : Nat × Mbuf × Pool} (ended : o.isSome = true)
    (code : (o.getD d).1 = 0) : o = some (0, (o.getD d).2.1, (o.getD d).2.2) := by
  cases o with
  | none => cases ended
  | some a => rw [← code]; rfl

theorem get_eq {call : Option Mbuf × Pool} (ended : call.1.isSome = true) :
    call = (some (mbufOf call), call.2) := Prod.ext (some_getD ended) rfl

theorem boot_answers :
    ((initTable Kmem.board bootPool).isSome = true ∧ tabled.kmem.kmemoffs + pageSize ≤ refEntries * mclBytes ∧
      (mbufinit Kmem.board bootPool).isSome = true ∧
        ((mbufinit Kmem.board bootPool).getD (1, bootPool)).1 = 0) ∧
    (firstGet.1.isSome = true ∧ firstGet.2.mclfree ≠ 0 ∧
      (mbufGetext Kmem.board firstGet.2 (mbufOf firstGet)).isSome = true ∧ firstExt.1 = 0) ∧
    secondGet.1.isSome = true ∧ secondGet.2.mclfree ≠ 0 ∧
      (mbufGetext Kmem.board secondGet.2 (mbufOf secondGet)).isSome = true ∧ secondExt.1 = 0 := by
  decide +kernel

theorem started_call : mbufinit Kmem.board bootPool = some (0, started) := by
  obtain ⟨⟨-, -, ended, code⟩, -⟩ := boot_answers
  exact (some_getD ended).trans (congrArg some (Prod.ext code rfl))

theorem started_reachable : Reachable Kmem.board Within16M started [] := by
  obtain ⟨⟨ended, room, -⟩, -⟩ := boot_answers
  have table : initTable Kmem.board bootPool = some tabled := some_getD ended
  exact .init bootPool_blank table (.inr room) started_call

theorem firstGet_reachable : Reachable Kmem.board Within16M firstGet.2 [mbufOf firstGet] :=
  started_reachable.get (get_eq boot_answers.2.1.1)

theorem firstExt_reachable : Reachable Kmem.board Within16M firstExt.2.2 [firstExt.2.1] := by
  obtain ⟨-, ⟨-, free, ended, code⟩, -⟩ := boot_answers
  have call : mbufGetext Kmem.board firstGet.2 (mbufOf firstGet) = some (0, firstExt.2.1, firstExt.2.2) :=
    ext_eq ended code
  exact firstGet_reachable.getext_head rfl (.inl free) (.inl free) call

theorem secondExt_reachable :
    Reachable Kmem.board Within16M secondExt.2.2 [secondExt.2.1, firstExt.2.1] := by
  obtain ⟨-, -, given, free, ended, code⟩ := boot_answers
  have get₂ := firstExt_reachable.get (@get_eq secondGet given)
  have call₂ : mbufGetext Kmem.board secondGet.2 (mbufOf secondGet) =
      some (0, secondExt.2.1, secondExt.2.2) :=
    ext_eq ended code
  exact get₂.getext_head rfl (.inl free) (.inl free) call₂

theorem cluster_counts_first :
    Counted Kmem.board secondExt.2.2 [secondExt.2.1, firstExt.2.1] ∧
      Served Kmem.board Within16M secondExt.2.2 [secondExt.2.1, firstExt.2.1] :=
  cluster_counts secondExt_reachable

/-- Mbufs alone can push the next cluster beyond the reach of the table. -/
theorem cluster_counts_exhausted :
    ¬ ∀ P live, Reachable Kmem.board (fun _ => True) P live →
      Counted Kmem.board P live ∧ Served Kmem.board (fun _ => True) P live := by
  intro claim
  have run := secondExt_reachable.get (@get_eq thirdGet (by decide +kernel))
  have offs : thirdGet.2.kmem.kmemoffs = 0x1a000 := by decide +kernel
  have none : thirdGet.2.mclfree = 0 := by decide +kernel
  obtain ⟨P, more, run', wf, high, first⟩ := run.wf.advance_pages run 4070 (by rw [offs]; decide)
  rw [offs] at high
  rw [none] at first
  have room : P.kmem.kmemoffs + pageSize ≤ kmemSize := by rw [high]; decide
  have outside := getext_outside (m := mbufOf thirdGet) wf first (by rw [high]; decide) room
  obtain ⟨m', P', served⟩ := (claim P _ (run'.mono (fun _ _ => trivial))).2.getext (mbufOf thirdGet)
    (by simp) rfl trivial (.inr room)
  rw [outside] at served
  cases served

/-- The block `mbufinit` got for the counts, and the entry `mclrefcnt[i]`. -/
def countsBlock (P : Pool) : Region := ⟨P.mclrefcnt, refTable⟩
def entry (P : Pool) (i : Nat) : Region := ⟨P.mclrefcnt + sizeofLong * i, sizeofLong⟩

/-- The count of the cluster `c` starts at zero inside the table, and updates of it stay there. -/
structure Covered (A : Arena) (P : Pool) (c : Nat) : Prop where
  inside : Region.Within (entry P (mtocl A c)) (countsBlock P)
  zeroed : P.refcnt (mtocl A c) = 0
  updates : ∀ (Q : Pool) (d : Int), (Q.count (mtocl A c) d).isSome = true

theorem pushClusters_refcnt (count p : Nat) (P : Pool) : (pushClusters count p P).refcnt = P.refcnt := by
  induction count generalizing p P with
  | zero => rfl
  | succ count ih => rw [pushClusters, ih]

theorem mbufClalloc_refcnt (A : Arena) (P : Pool) (ncl : Nat) :
    (mbufClalloc A P ncl).2.refcnt = P.refcnt := by
  simp only [mbufClalloc]
  split
  · rfl
  · simp only [pushClusters_refcnt]

theorem mbufinit_zeroes {code : Nat} {P' : Pool} (call : mbufinit A P = some (code, P')) {i : Nat}
    (inside : i < refEntries) : P'.refcnt i = 0 := by
  unfold mbufinit at call
  cases table : initTable A P with
  | none => rw [table] at call; cases call
  | some P₁ =>
    have zero : P₁.refcnt i = 0 := by
      simp only [initTable] at table
      split at table
      · cases table
      · simp only [Option.some.injEq] at table
        rw [← table]
        exact if_pos inside
    have kept := mbufClalloc_refcnt A P₁ 1
    rw [table] at call
    simp only at call
    split at call
    · rename_i P₂ carved
      rw [carved] at kept
      simp only [Option.some.injEq, Prod.mk.injEq] at call
      rw [← call.2, kept, zero]
    · rename_i P₂ _ carved
      rw [carved] at kept
      simp only [Option.some.injEq, Prod.mk.injEq] at call
      rw [← call.2, kept, zero]

/-- The table has one entry in four: it covers the first 16 MB of the arena. -/
theorem table_covers_iff {code : Nat} {P' : Pool} (call : mbufinit A P = some (code, P')) {c : Nat}
    (low : A.kmembase ≤ c) (high : c + mclBytes ≤ A.kmembase + kmemSize) :
    Covered A P' c ↔ c < A.kmembase + refEntries * mclBytes := by
  have fits := A.fits
  have index : mtocl A c = (c - A.kmembase) / mclBytes := by
    rw [mtocl, wsub_of_le low (by omega)]
    rfl
  have reach : mtocl A c < refEntries ↔ c < A.kmembase + refEntries * mclBytes := by
    rw [index, Nat.div_lt_iff_lt_mul (by decide)]
    omega
  rw [← reach]
  constructor
  · intro covered
    have inside := covered.inside.2
    simp only [entry, countsBlock, Region.stop, refEntries, sizeofLong] at *
    omega
  · intro inside
    refine ⟨⟨?_, ?_⟩, mbufinit_zeroes call inside, ?_⟩
    · simp only [entry, countsBlock]
      omega
    · simp only [entry, countsBlock, Region.stop, refEntries, sizeofLong] at *
      omega
    · intro Q d
      rw [Pool.count_eq inside]
      rfl

theorem table_covers_first : Covered Kmem.board started 0x8b018000 :=
  (table_covers_iff started_call (by decide) (by decide)).mpr (by decide)

/-- A kernel block of 16 MB later, `mbuf_clalloc` carves clusters whose counts lie elsewhere. -/
abbrev crowded : Pool := { started with kmem := (kmemMalloc Kmem.board started.kmem 0x1000000).2 }

theorem table_leaves_out :
    (kmemMalloc Kmem.board started.kmem 0x1000000).1 ≠ 0 ∧
      ∃ c ∈ (mbufClalloc Kmem.board crowded 1).2.carved, ¬ Covered Kmem.board started c := by
  refine ⟨by decide +kernel, 0x8c019000, by decide +kernel, fun covered => ?_⟩
  have inside := covered.updates started 1
  revert inside
  decide +kernel

end Embryo.Uipc
