import Embryo.Machine.Linked
import Embryo.Uipc.Layout

namespace Embryo.Uipc

open Embryo.Machine
open Embryo.Kmem (Arena kmemSize pageSize)

def Mbuf.holds (m : Mbuf) (c : Nat) : Bool := m.flags.ext && m.ext.meBuf == c

def holders (live : List Mbuf) (c : Nat) : Nat := live.countP (fun m => m.holds c)

theorem holders_cons (m : Mbuf) (live : List Mbuf) (c : Nat) :
    holders (m :: live) c = holders live c + if m.holds c then 1 else 0 := List.countP_cons

theorem holders_perm {live live' : List Mbuf} (perm : live.Perm live') (c : Nat) :
    holders live c = holders live' c := perm.countP_eq _

/-- `nodes` are the clusters on the list at `mclfree`, and these are the unused ones. -/
structure FreeList (P : Pool) (live : List Mbuf) (nodes : List Nat) : Prop where
  linked : Linked (load32 P.mem) P.mclfree nodes
  nodup : nodes.Nodup
  unused : ∀ c, c ∈ nodes ↔ c ∈ P.carved ∧ holders live c = 0
  freemcl : P.mbstats.freemcl = nodes.length

structure Wf (A : Arena) (P : Pool) (live : List Mbuf) : Prop where
  placed : Placed A P.kmem P.mclrefcnt P.carved live
  tabled : ∀ c ∈ P.carved, mtocl A c < refEntries
  counted : ∀ c ∈ P.carved, P.refcnt (mtocl A c) = holders live c
  blank : ∀ i < refEntries, (∀ c ∈ P.carved, mtocl A c ≠ i) → P.refcnt i = 0
  listed : ∃ nodes, FreeList P live nodes
  exts : ∀ m ∈ live, m.flags.ext = true →
    m.ext.meBuf ∈ P.carved ∧ m.ext.meFree = 0 ∧ m.ext.meRef = 0
  types : ∀ m ∈ live, m.type < 256

/-- Nothing in the buffers of `live` has changed, nor what blocks held before their use. -/
structure Calm (P P' : Pool) (live : List Mbuf) : Prop where
  mem : ∀ m ∈ live, ∀ x, m.room.addr ≤ x → x < m.room.stop → P'.mem x = P.mem x
  stale : P'.stale = P.stale

theorem Calm.refl (P : Pool) (live : List Mbuf) : Calm P P live := ⟨fun _ _ _ _ _ => rfl, rfl⟩

theorem Calm.mono {P P' : Pool} {live live' : List Mbuf} (calm : Calm P P' live)
    (subset : ∀ m ∈ live', m ∈ live) : Calm P P' live' :=
  ⟨fun m member => calm.mem m (subset m member), calm.stale⟩

theorem Calm.trans {P P' P'' : Pool} {live live' : List Mbuf} (first : Calm P P' live)
    (second : Calm P' P'' live') (subset : ∀ m ∈ live', m ∈ live) : Calm P P'' live' := by
  constructor
  · intro m member x low high
    rw [second.mem m member x low high, first.mem m (subset m member) x low high]
  · rw [second.stale, first.stale]

variable {A : Arena} {P : Pool} {live : List Mbuf}

theorem FreeList.perm {nodes : List Nat} {live' : List Mbuf} (free : FreeList P live nodes)
    (perm : live.Perm live') : FreeList P live' nodes := by
  refine { free with unused := ?_ }
  intro c
  rw [free.unused c, holders_perm perm]

theorem Wf.perm {live' : List Mbuf} (wf : Wf A P live) (perm : live.Perm live') : Wf A P live' := by
  obtain ⟨nodes, free⟩ := wf.listed
  constructor
  · exact wf.placed.perm perm
  · exact wf.tabled
  · intro c member
    rw [wf.counted c member, holders_perm perm]
  · exact wf.blank
  · exact ⟨nodes, free.perm perm⟩
  · intro m member
    exact wf.exts m (perm.symm.subset member)
  · intro m member
    exact wf.types m (perm.symm.subset member)

theorem Wf.adjust {m m' : Mbuf} (wf : Wf A P (m :: live)) (addr : m'.addr = m.addr)
    (type : m'.type = m.type) (flag : m'.flags.ext = m.flags.ext)
    (ext : m.flags.ext = true → m'.ext = m.ext) : Wf A P (m' :: live) := by
  have holds : ∀ c, m'.holds c = m.holds c := by
    intro c
    simp only [Mbuf.holds, flag]
    cases plain : m.flags.ext with
    | false => rfl
    | true => rw [ext plain]
  have same : ∀ c, holders (m' :: live) c = holders (m :: live) c := by
    intro c
    rw [holders_cons, holders_cons, holds]
  obtain ⟨nodes, free⟩ := wf.listed
  constructor
  · exact wf.placed.congr (by simp only [List.map_cons, addr])
  · exact wf.tabled
  · intro c member
    rw [wf.counted c member, same]
  · exact wf.blank
  · exact ⟨nodes, free.linked, free.nodup, fun c => by rw [free.unused, same], free.freemcl⟩
  · intro n member shared
    rcases List.mem_cons.mp member with rfl | member
    · rw [flag] at shared
      rw [ext shared]
      exact wf.exts m List.mem_cons_self shared
    · exact wf.exts n (List.mem_cons_of_mem _ member) shared
  · intro n member
    rcases List.mem_cons.mp member with rfl | member
    · rw [type]
      exact wf.types m List.mem_cons_self
    · exact wf.types n (List.mem_cons_of_mem _ member)

theorem Wf.room_ext (wf : Wf A P live) {m : Mbuf} (member : m ∈ live) (shared : m.flags.ext = true) :
    m.room = cluster m.ext.meBuf ∧ m.ext.meBuf ∈ P.carved := by
  refine ⟨?_, (wf.exts m member shared).1⟩
  rw [Mbuf.room, if_pos shared]
  rfl

theorem room_within {m : Mbuf} (plain : m.flags.ext = false) : Region.Within m.room m.block := by
  simp only [Mbuf.room, plain, Bool.false_eq_true, if_false, Region.Within, Region.stop, Mbuf.block,
    Mbuf.pktdat, Mbuf.dat, mhlen, mlen, msize, sizeofMHdr, sizeofPkthdr]
  split <;> simp only <;> omega

theorem not_holds {m : Mbuf} {c : Nat} (member : m ∈ live) (unused : holders live c = 0) :
    m.holds c = false := by
  have := List.countP_eq_zero.mp unused m member
  simpa using this

theorem Wf.room_cluster (wf : Wf A P live) {m : Mbuf} (memberM : m ∈ live) {c : Nat}
    (member : c ∈ P.carved) (free : m.holds c = false) : Region.Apart m.room (cluster c) := by
  cases shared : m.flags.ext with
  | true =>
    obtain ⟨room, carved⟩ := wf.room_ext memberM shared
    have other : m.ext.meBuf ≠ c := by
      rintro rfl
      simp [Mbuf.holds, shared] at free
    rw [room]
    exact wf.placed.clusters_apart carved member other
  | false =>
    exact (wf.placed.block_cluster memberM member).mono (room_within shared)
      ⟨Nat.le_refl _, Nat.le_refl _⟩

theorem Wf.calm_of_cluster {all : List Mbuf} (wf : Wf A P all) (subset : ∀ m ∈ live, m ∈ all) {c : Nat}
    (member : c ∈ P.carved) (unused : holders live c = 0) {mem : Memory}
    (frame : ∀ x, ¬ (c ≤ x ∧ x < c + mclBytes) → mem x = P.mem x) :
    ∀ m ∈ live, ∀ x, m.room.addr ≤ x → x < m.room.stop → mem x = P.mem x := by
  intro m memberM x low high
  apply frame
  intro inside
  have apart := wf.room_cluster (subset m memberM) member (not_holds memberM unused)
  simp only [Region.Apart, Region.stop, cluster] at *
  omega

theorem FreeList.length_le {nodes : List Nat} (wf : Wf A P live) (free : FreeList P live nodes) :
    nodes.length ≤ refEntries := by
  have carved : ∀ c ∈ nodes, c ∈ P.carved := fun c member => ((free.unused c).mp member).1
  have nodup : (nodes.map (mtocl A)).Nodup := by
    apply List.Nodup.map_on _ free.nodup
    intro c memberC d memberD same
    exact wf.placed.mtocl_injective (carved c memberC) (carved d memberD) same
  have subset : nodes.map (mtocl A) ⊆ List.range refEntries := by
    intro i member
    obtain ⟨c, memberC, rfl⟩ := List.mem_map.mp member
    exact List.mem_range.mpr (wf.tabled c (carved c memberC))
  have := (nodup.subperm subset).length_le
  rwa [List.length_map, List.length_range] at this

theorem Wf.take (wf : Wf A P live) {type : Nat} (bound : type < 256) (pkt : Bool) :
    ((Kmem.kmemMalloc A P.kmem msize).1 = 0 ∧ mbufTake A P type pkt = (none, P)) ∨
      ∃ p k, Kmem.kmemMalloc A P.kmem msize = (p, k) ∧ p ≠ 0 ∧
        mbufTake A P type pkt = (some (initial (P.stale p) p type pkt), took P k p type) ∧
        Wf A (took P k p type) (initial (P.stale p) p type pkt :: live) := by
  have valid : ¬ type ≥ 256 := by omega
  rcases wf.placed.get with failed | ⟨p, k, given, nonzero, offs, after⟩
  · left
    simp only [mbufTake, valid, if_false, mget, failed, if_true]
    exact ⟨trivial, trivial⟩
  · right
    have holds : ∀ c, holders (initial (P.stale p) p type pkt :: live) c = holders live c := by
      intro c
      rw [holders_cons]
      simp [Mbuf.holds, initial, noFlags]
    obtain ⟨nodes, free⟩ := wf.listed
    refine ⟨p, k, given, nonzero, ?_, ?_⟩
    · simp only [mbufTake, valid, if_false, mget, given, nonzero]
    · constructor
      · exact after _ rfl
      · exact wf.tabled
      · intro c member
        rw [holds]
        exact wf.counted c member
      · exact wf.blank
      · refine ⟨nodes, free.linked, free.nodup, ?_, free.freemcl⟩
        intro c
        rw [holds]
        exact free.unused c
      · intro m member shared
        rcases List.mem_cons.mp member with rfl | member
        · simp [initial, noFlags] at shared
        · exact wf.exts m member shared
      · intro m member
        rcases List.mem_cons.mp member with rfl | member
        · exact bound
        · exact wf.types m member

theorem Pool.count_eq {P : Pool} {i : Nat} (inside : i < refEntries) (d : Int) :
    P.count i d = some { P with refcnt := Function.update P.refcnt i (P.refcnt i + d) } := if_pos inside

theorem FreeList.first_lt {nodes : List Nat} (wf : Wf A P live) (free : FreeList P live nodes) :
    P.mclfree < 2^32 := by
  have linked := free.linked
  cases nodes with
  | nil => rw [linked]; decide
  | cons c nodes =>
    rw [linked.1]
    have := wf.placed.cluster_bounds ((free.unused c).mp List.mem_cons_self).1
    omega

theorem Wf.link_kept (wf : Wf A P live) {c d v : Nat} (memberC : c ∈ P.carved) (memberD : d ∈ P.carved)
    (different : d ≠ c) : load32 (store32 P.mem c v) d = load32 P.mem d := by
  have apart := wf.placed.clusters_apart memberC memberD (Ne.symm different)
  apply load32_congr
  intro x low high
  apply store32_outside
  simp only [Region.Apart, Region.stop, cluster, mclBytes, mclShift] at apart
  omega

def Mbuf.plain (m : Mbuf) : Mbuf := { m with flags := { m.flags with ext := false } }

theorem holders_plain (m : Mbuf) (live : List Mbuf) (c : Nat) :
    holders (m.plain :: live) c = holders live c := by
  rw [holders_cons]
  simp [Mbuf.holds, Mbuf.plain]

theorem Wf.release {m : Mbuf} (wf : Wf A P (m :: live)) (shared : m.flags.ext = true) :
    ∃ P', mclfree A P m.ext.meBuf = some P' ∧ Wf A P' (m.plain :: live) ∧ Calm P P' live ∧
      P'.kmem = P.kmem ∧ P'.carved = P.carved ∧ P'.taken = P.taken ∧ P'.freed = P.freed := by
  obtain ⟨member, _, _⟩ := wf.exts m List.mem_cons_self shared
  generalize cell : m.ext.meBuf = c at *
  have inside := wf.tabled c member
  obtain ⟨nodes, free⟩ := wf.listed
  have self : holders (m :: live) c = holders live c + 1 := by
    rw [holders_cons, if_pos]
    simp [Mbuf.holds, shared, cell]
  have others : ∀ d, d ≠ c → holders (m :: live) d = holders live d := by
    intro d different
    rw [holders_cons, if_neg]
    · rfl
    · simp only [Mbuf.holds, shared, cell, Bool.true_and, beq_iff_eq]
      exact Ne.symm different
  have count : P.refcnt (mtocl A c) + -1 = holders live c := by
    rw [wf.counted c member, self]
    push_cast
    ring
  have counted : ∀ d ∈ P.carved,
      Function.update P.refcnt (mtocl A c) (holders live c : Int) (mtocl A d) =
        holders (m.plain :: live) d := by
    intro d memberD
    rw [holders_plain]
    by_cases same : d = c
    · rw [same, Function.update_self]
    · have index : mtocl A d ≠ mtocl A c :=
        fun equal => same (wf.placed.mtocl_injective memberD member equal)
      rw [Function.update_of_ne index, wf.counted d memberD, others d same]
  have blank : ∀ i < refEntries, (∀ d ∈ P.carved, mtocl A d ≠ i) →
      Function.update P.refcnt (mtocl A c) (holders live c : Int) i = 0 := by
    intro i less outside
    rw [Function.update_of_ne (Ne.symm (outside c member)), wf.blank i less outside]
  have placed : Placed A P.kmem P.mclrefcnt P.carved (m.plain :: live) :=
    wf.placed.congr rfl
  have exts : ∀ n ∈ m.plain :: live, n.flags.ext = true →
      n.ext.meBuf ∈ P.carved ∧ n.ext.meFree = 0 ∧ n.ext.meRef = 0 := by
    intro n memberN sharedN
    rcases List.mem_cons.mp memberN with rfl | memberN
    · simp [Mbuf.plain] at sharedN
    · exact wf.exts n (List.mem_cons_of_mem _ memberN) sharedN
  have types : ∀ n ∈ m.plain :: live, n.type < 256 := by
    intro n memberN
    rcases List.mem_cons.mp memberN with rfl | memberN
    · exact wf.types m List.mem_cons_self
    · exact wf.types n (List.mem_cons_of_mem _ memberN)
  simp only [mclfree, Pool.count_eq inside, Function.update_self, count]
  by_cases last : holders live c = 0
  · rw [if_pos (by rw [last]; rfl)]
    have fresh : c ∉ nodes := by
      intro listed
      have := ((free.unused c).mp listed).2
      omega
    refine ⟨_, rfl, ⟨placed, wf.tabled, counted, blank, ⟨c :: nodes, ?_, ?_, ?_, ?_⟩, exts, types⟩, ⟨?_, rfl⟩,
      rfl, rfl, rfl, rfl⟩
    · refine ⟨rfl, Nat.pos_iff_ne_zero.mp (wf.placed.cluster_bounds member).1, ?_⟩
      simp only [load32_store32 (free.first_lt wf)]
      apply free.linked.congr
      intro d memberD
      have different : d ≠ c := fun same => fresh (same ▸ memberD)
      exact wf.link_kept member ((free.unused d).mp memberD).1 different
    · exact List.nodup_cons.mpr ⟨fresh, free.nodup⟩
    · intro d
      rw [List.mem_cons, holders_plain, free.unused d]
      by_cases same : d = c
      · simp [same, member, last]
      · simp only [same, false_or, others d same]
    · have := free.length_le wf
      simp only [free.freemcl, List.length_cons, wrap, refEntries, refTable, kmemSize, Kmem.clBytes,
        pageSize, mclBytes, mclShift, sizeofLong] at *
      omega
    · apply wf.calm_of_cluster (fun n memberN => List.mem_cons_of_mem _ memberN) member last
      intro x outside
      apply store32_outside
      simp only [mclBytes, mclShift] at outside
      omega
  · rw [if_neg (by exact_mod_cast last)]
    refine ⟨_, rfl, ⟨placed, wf.tabled, counted, blank, ⟨nodes, free.linked, free.nodup, ?_, free.freemcl⟩,
      exts, types⟩, ⟨fun _ _ _ _ _ => rfl, rfl⟩, rfl, rfl, rfl, rfl⟩
    intro d
    rw [free.unused d, holders_plain]
    by_cases same : d = c
    · simp only [same, self, last]
      simp
    · rw [others d same]

theorem Wf.discard {m : Mbuf} (wf : Wf A P (m :: live)) (plain : m.flags.ext = false) :
    ∃ k, Kmem.kmemFree A P.kmem m.addr = some k ∧ k.kmemoffs = P.kmem.kmemoffs ∧
      Wf A { P with kmem := k, freed := m.addr :: P.freed } live := by
  obtain ⟨k, freed, placed, offs⟩ := wf.placed.free
  have same : ∀ c, holders (m :: live) c = holders live c := by
    intro c
    rw [holders_cons]
    simp [Mbuf.holds, plain]
  obtain ⟨nodes, free⟩ := wf.listed
  refine ⟨k, freed, offs, placed, wf.tabled, ?_, wf.blank,
    ⟨nodes, free.linked, free.nodup, ?_, free.freemcl⟩, ?_, ?_⟩
  · intro c member
    rw [← same]
    exact wf.counted c member
  · intro c
    rw [← same]
    exact free.unused c
  · intro n member
    exact wf.exts n (List.mem_cons_of_mem _ member)
  · intro n member
    exact wf.types n (List.mem_cons_of_mem _ member)

structure Freed (P P' : Pool) (live : List Mbuf) (gone : List Nat) : Prop where
  calm : Calm P P' live
  freed : P'.freed = gone ++ P.freed
  taken : P'.taken = P.taken
  carved : P'.carved = P.carved
  offs : P'.kmem.kmemoffs = P.kmem.kmemoffs

theorem Wf.untype (wf : Wf A P live) (type : Nat) : Wf A (P.untype type) live := by
  obtain ⟨nodes, free⟩ := wf.listed
  exact ⟨wf.placed, wf.tabled, wf.counted, wf.blank,
    ⟨nodes, free.linked, free.nodup, free.unused, free.freemcl⟩, wf.exts, wf.types⟩

theorem Wf.free {m : Mbuf} (wf : Wf A P (m :: live)) :
    ∃ P', mbufFree A P m = some P' ∧ Wf A P' live ∧ Freed P P' live [m.addr] := by
  have same := wf.untype m.type
  have kept : (P.untype m.type).mem = P.mem ∧ (P.untype m.type).stale = P.stale ∧
      (P.untype m.type).kmem = P.kmem ∧ (P.untype m.type).carved = P.carved ∧
      (P.untype m.type).taken = P.taken ∧ (P.untype m.type).freed = P.freed :=
    ⟨rfl, rfl, rfl, rfl, rfl, rfl⟩
  unfold mbufFree
  generalize P.untype m.type = Q at *
  obtain ⟨mem, stale, kmem, carved, taken, before⟩ := kept
  cases shared : m.flags.ext with
  | true =>
    obtain ⟨P₁, released, wf₁, calm, kmem₁, carved₁, taken₁, before₁⟩ := same.release shared
    obtain ⟨k, freed, offs, wf₂⟩ := wf₁.discard rfl
    have none : m.ext.meFree = 0 := (wf.exts m List.mem_cons_self shared).2.1
    refine ⟨_, ?_, wf₂, ?_⟩
    · simp only [if_true, none, ne_eq, not_true_eq_false, if_false, released]
      rw [show m.addr = m.plain.addr from rfl, freed]
    · refine ⟨⟨?_, ?_⟩, ?_, ?_, ?_, ?_⟩
      · intro n member x low high
        rw [← mem]
        exact calm.mem n member x low high
      · rw [← stale]
        exact calm.stale
      · simp only [before₁, before]
        rfl
      · simp only [taken₁, taken]
      · simp only [carved₁, carved]
      · simp only [offs, kmem₁, kmem]
  | false =>
    obtain ⟨k, freed, offs, wf₂⟩ := same.discard shared
    refine ⟨_, ?_, wf₂, ?_⟩
    · simp only [Bool.false_eq_true, if_false, freed]
    · refine ⟨⟨?_, stale⟩, ?_, taken, carved, ?_⟩
      · intro n member x low high
        simp only [mem]
      · simp only [before]
        rfl
      · simp only [offs, kmem]

theorem Wf.freem {chain : Chain} (wf : Wf A P (chain ++ live)) :
    ∃ P', mbufFreem A P chain = some P' ∧ Wf A P' live ∧
      Freed P P' live (chain.map Mbuf.addr).reverse := by
  induction chain generalizing P with
  | nil => exact ⟨P, rfl, wf, ⟨Calm.refl P live, rfl, rfl, rfl, rfl⟩⟩
  | cons m chain ih =>
    obtain ⟨P₁, freed, wf₁, result₁⟩ := wf.free
    obtain ⟨P₂, freed₂, wf₂, result₂⟩ := ih wf₁
    refine ⟨P₂, ?_, wf₂, ?_⟩
    · simp only [mbufFreem, freed]
      exact freed₂
    · refine ⟨result₁.calm.trans result₂.calm (fun n member => List.mem_append_right _ member), ?_,
        ?_, ?_, ?_⟩
      · rw [result₂.freed, result₁.freed]
        simp
      · rw [result₂.taken, result₁.taken]
      · rw [result₂.carved, result₁.carved]
      · rw [result₂.offs, result₁.offs]

def grown (P : Pool) (k : Kmem.State) (p : Nat) : Pool :=
  { P with
    kmem := k
    mem := store32 (store32 P.mem p P.mclfree) (p + mclBytes) p
    mclfree := p + mclBytes
    mbstats := { P.mbstats with
      nmcl := wrap (P.mbstats.nmcl + 2)
      freemcl := wrap (wrap (P.mbstats.freemcl + 1) + 1) }
    carved := halves p ++ P.carved }

theorem mbufClalloc_eq {p : Nat} {k : Kmem.State}
    (given : Kmem.kmemAlloc A P.kmem (1 * Kmem.clBytes) = (p, k)) (nonzero : p ≠ 0) :
    mbufClalloc A P 1 = (0, grown P k p) := by
  simp only [mbufClalloc, given, nonzero, if_false]
  rfl

theorem mbufClalloc_fails (full : Kmem.kmemAlloc A P.kmem (1 * Kmem.clBytes) = (0, P.kmem)) :
    mbufClalloc A P 1 = (1, P) := by
  simp only [mbufClalloc, full, if_true]

theorem holders_fresh (wf : Wf A P live) {c : Nat} (fresh : c ∉ P.carved) : holders live c = 0 := by
  apply List.countP_eq_zero.mpr
  intro m member
  simp only [Mbuf.holds, Bool.and_eq_true, beq_iff_eq, not_and]
  rintro shared rfl
  exact fresh (wf.exts m member shared).1

theorem FreeList.grow {nodes : List Nat} (wf : Wf A P live) (free : FreeList P live nodes)
    {k : Kmem.State} {p : Nat} (above : ∀ c ∈ P.carved, c + mclBytes ≤ p) (nonzero : p ≠ 0)
    (fits : p + 2 * mclBytes < 2^32) (unused : ∀ c ∈ halves p, holders live c = 0) :
    FreeList (grown P k p) live (halves p ++ nodes) := by
  have carved : ∀ c ∈ nodes, c ∈ P.carved := fun c member => ((free.unused c).mp member).1
  have wide : 4 ≤ mclBytes := by decide
  have mem : ∀ x, x < p → (grown P k p).mem x = P.mem x := by
    intro x below
    simp only [grown]
    rw [store32_outside (by omega), store32_outside (by omega)]
  constructor
  · have second : load32 (grown P k p).mem (p + mclBytes) = p := load32_store32 (by omega) _ _
    have first : load32 (grown P k p).mem p = P.mclfree := by
      rw [← load32_store32 (free.first_lt wf) P.mem p]
      apply load32_congr
      intro x low high
      exact store32_outside (by omega)
    refine ⟨rfl, by omega, ?_⟩
    rw [second]
    refine ⟨rfl, nonzero, ?_⟩
    rw [first]
    apply free.linked.congr
    intro c member
    apply load32_congr
    intro x low high
    have := above c (carved c member)
    exact mem x (by omega)
  · apply List.nodup_append.mpr
    refine ⟨by simp [halves, mclBytes], free.nodup, ?_⟩
    intro c inPage d member same
    have := above d (carved d member)
    simp only [halves, List.mem_cons, List.not_mem_nil, or_false] at inPage
    omega
  · intro c
    rw [List.mem_append, free.unused c]
    simp only [grown, List.mem_append]
    constructor
    · rintro (inPage | ⟨member, none⟩)
      · exact ⟨.inl inPage, unused c inPage⟩
      · exact ⟨.inr member, none⟩
    · rintro ⟨inPage | member, none⟩
      · exact .inl inPage
      · exact .inr ⟨member, none⟩
  · have := free.length_le wf
    simp only [grown, free.freemcl, List.length_append, halves, List.length_cons, List.length_nil, wrap,
      refEntries, refTable, kmemSize, Kmem.clBytes, pageSize, mclBytes, mclShift, sizeofLong] at *
    omega

theorem Wf.room_below (wf : Wf A P live) {m : Mbuf} (member : m ∈ live) :
    m.room.stop ≤ A.kmembase + P.kmem.kmemoffs := by
  cases shared : m.flags.ext with
  | true =>
    obtain ⟨room, carved⟩ := wf.room_ext member shared
    rw [room]
    exact (wf.placed.cluster_place carved).2.2
  | false =>
    have := (room_within shared).2
    have := wf.placed.block_below member
    omega

theorem Wf.carve (wf : Wf A P live) (room : P.kmem.kmemoffs + pageSize ≤ kmemSize)
    (reach : P.kmem.kmemoffs + pageSize ≤ refEntries * mclBytes) :
    ∃ P', mbufClalloc A P 1 = (0, P') ∧ Wf A P' live ∧ Calm P P' live ∧ P'.mclfree ≠ 0 ∧
      P'.taken = P.taken ∧ P'.freed = P.freed ∧ P'.refcnt = P.refcnt := by
  rcases wf.placed.take_page with ⟨_, full⟩ | ⟨given, _, whole, placed⟩
  · omega
  · have base := A.positive
    generalize start : A.kmembase + P.kmem.kmemoffs = p at *
    have nonzero : p ≠ 0 := by omega
    obtain ⟨nodes, free⟩ := wf.listed
    have first := free.first_lt wf
    have above : ∀ c ∈ P.carved, c + mclBytes ≤ p := by
      intro c member
      have := (wf.placed.cluster_place member).2.2
      omega
    have fresh : ∀ c ∈ halves p, c ∉ P.carved ∧ c ∉ nodes := by
      intro c inPage
      have outside : c ∉ P.carved := by
        intro member
        have := above c member
        simp only [halves, List.mem_cons, List.not_mem_nil, or_false, mclBytes, mclShift] at *
        omega
      exact ⟨outside, fun listed => outside ((free.unused c).mp listed).1⟩
    have bound := wf.placed.offs_le
    have arena := A.fits
    have mem : ∀ x, x < p → store32 (store32 P.mem p P.mclfree) (p + mclBytes) p x = P.mem x := by
      intro x below
      rw [store32_outside (by omega), store32_outside (by omega)]
    have injective : ∀ c ∈ halves p, ∀ d ∈ P.carved, mtocl A d ≠ mtocl A c := by
      intro c inPage d member same
      have := placed.mtocl_injective (List.mem_append_right _ member) (List.mem_append_left _ inPage) same
      exact (fresh c inPage).1 (this ▸ member)
    have tabled : ∀ c ∈ halves p ++ P.carved, mtocl A c < refEntries := by
      intro c member
      have shape := placed.cluster_place member
      simp only [mtocl, refEntries, refTable, sizeofLong, mclBytes, mclShift, pageSize, kmemSize,
        Kmem.clBytes] at *
      rw [wsub_of_le shape.1 (by omega)]
      omega
    refine ⟨_, mbufClalloc_eq given nonzero, ⟨placed, tabled, ?_, ?_, ?_, ?_, wf.types⟩, ⟨?_, rfl⟩, ?_,
      rfl, rfl, rfl⟩
    · intro c member
      rcases List.mem_append.mp member with inPage | member
      · rw [holders_fresh wf (fresh c inPage).1]
        exact wf.blank _ (tabled c (List.mem_append_left _ inPage)) (injective c inPage)
      · exact wf.counted c member
    · intro i less outside
      exact wf.blank i less (fun c member => outside c (List.mem_append_right _ member))
    · refine ⟨halves p ++ nodes, free.grow wf above nonzero ?_ ?_⟩
      · simp only [pageSize, mclBytes, mclShift] at *
        omega
      · intro c inPage
        exact holders_fresh wf (fresh c inPage).1
    · intro m member shared
      obtain ⟨carved, rest⟩ := wf.exts m member shared
      exact ⟨List.mem_append_right _ carved, rest⟩
    · intro m member x low high
      apply mem
      have inside := wf.room_below member
      omega
    · simp only [grown, mclBytes, mclShift]
      omega

def popped (A : Arena) (P : Pool) : Pool :=
  { P with
    refcnt := Function.update P.refcnt (mtocl A P.mclfree) (P.refcnt (mtocl A P.mclfree) + 1)
    mbstats := { P.mbstats with freemcl := wsub P.mbstats.freemcl 1 }
    mclfree := load32 P.mem P.mclfree }

theorem mclalloc_pops (some : P.mclfree ≠ 0) (inside : mtocl A P.mclfree < refEntries) :
    mclalloc A P = Option.some (Option.some P.mclfree, popped A P) := by
  simp only [mclalloc, some, if_false, ne_eq, not_false_eq_true, if_true, Pool.count_eq inside]
  rfl

theorem mclalloc_carves {P' : Pool} (none : P.mclfree = 0) (carved : mbufClalloc A P 1 = (0, P'))
    (some : P'.mclfree ≠ 0) : mclalloc A P = mclalloc A P' := by
  simp only [mclalloc, none, carved, if_true, some, if_false]

theorem mclalloc_fails (none : P.mclfree = 0) (full : mbufClalloc A P 1 = (1, P)) :
    mclalloc A P = some (Option.none, P) := by
  simp only [mclalloc, none, full, if_true, ne_eq, not_true_eq_false, if_false]

theorem Wf.first_unused (wf : Wf A P live) (some : P.mclfree ≠ 0) {m : Mbuf} (member : m ∈ live) :
    m.holds P.mclfree = false := by
  obtain ⟨nodes, free⟩ := wf.listed
  obtain ⟨c, rest, rfl⟩ := List.exists_cons_of_ne_nil (mt free.linked.first_eq_zero_iff.mpr some)
  rw [free.linked.1]
  exact not_holds member ((free.unused c).mp List.mem_cons_self).2

theorem Wf.extend {m : Mbuf} (wf : Wf A P (m :: live)) (plain : m.flags.ext = false)
    (some : P.mclfree ≠ 0) : P.mclfree ∈ P.carved ∧ Wf A (popped A P) (m.extend P.mclfree :: live) := by
  obtain ⟨nodes, free⟩ := wf.listed
  obtain ⟨c, rest, rfl⟩ := List.exists_cons_of_ne_nil (mt free.linked.first_eq_zero_iff.mpr some)
  have first : P.mclfree = c := free.linked.1
  obtain ⟨member, zero⟩ := (free.unused c).mp List.mem_cons_self
  have before : ∀ d, holders (m :: live) d = holders live d := by
    intro d
    rw [holders_cons]
    simp [Mbuf.holds, plain]
  have self : holders (m.extend c :: live) c = 1 := by
    rw [before] at zero
    rw [holders_cons, zero]
    simp [Mbuf.holds, Mbuf.extend]
  have others : ∀ d, d ≠ c → holders (m.extend c :: live) d = holders (m :: live) d := by
    intro d different
    rw [before, holders_cons, if_neg]
    · rfl
    · simp only [Mbuf.holds, Mbuf.extend, Bool.true_and, beq_iff_eq]
      exact Ne.symm different
  have counted := wf.counted c member
  rw [first]
  refine ⟨member, wf.placed.congr rfl, wf.tabled, ?_, ?_, ?_, ?_, ?_⟩
  · intro d memberD
    simp only [popped, first]
    by_cases same : d = c
    · rw [same, Function.update_self, counted, zero, self]
      rfl
    · have index : mtocl A d ≠ mtocl A c :=
        fun equal => same (wf.placed.mtocl_injective memberD member equal)
      rw [Function.update_of_ne index, wf.counted d memberD, others d same]
  · intro i less outside
    simp only [popped, first]
    rw [Function.update_of_ne (Ne.symm (outside c member)), wf.blank i less outside]
  · refine ⟨rest, ?_, (List.nodup_cons.mp free.nodup).2, ?_, ?_⟩
    · simp only [popped, first]
      exact free.linked.2.2
    · intro d
      simp only [popped]
      by_cases same : d = c
      · have fresh := (List.nodup_cons.mp free.nodup).1
        simp only [same, fresh, self]
        simp
      · have listed := free.unused d
        rw [List.mem_cons] at listed
        rw [others d same, ← listed]
        simp only [same, false_or]
    · have := free.length_le wf
      simp only [popped, free.freemcl]
      rw [wsub_of_le]
      · simp
      · simp
      · simp only [refEntries, refTable, kmemSize, Kmem.clBytes, pageSize, mclBytes, mclShift,
          sizeofLong] at this
        omega
  · intro n memberN shared
    rcases List.mem_cons.mp memberN with rfl | memberN
    · exact ⟨member, rfl, rfl⟩
    · exact wf.exts n (List.mem_cons_of_mem _ memberN) shared
  · intro n memberN
    rcases List.mem_cons.mp memberN with rfl | memberN
    · exact wf.types m List.mem_cons_self
    · exact wf.types n (List.mem_cons_of_mem _ memberN)

def Carvable (P : Pool) : Prop :=
  P.mclfree ≠ 0 ∨ P.kmem.kmemoffs + pageSize ≤ refEntries * mclBytes ∨
    kmemSize < P.kmem.kmemoffs + pageSize

theorem mbufGetext_given {m : Mbuf} {c : Nat} {P' : Pool} (given : mclalloc A P = some (some c, P'))
    (nonzero : c ≠ 0) : mbufGetext A P m = some (0, m.extend c, P') := by
  simp only [mbufGetext, given, Option.getD_some, nonzero, ne_eq, not_false_eq_true, if_true]
  rfl

/-- `mbuf_getext` on an mbuf without a cluster: it gets one, or, when there is none to be had,
    it goes by what the block happened to hold. -/
theorem Wf.getext {m : Mbuf} (wf : Wf A P (m :: live)) (plain : m.flags.ext = false)
    (carvable : Carvable P) :
    (∃ c P', mbufGetext A P m = some (0, m.extend c, P') ∧ Wf A P' (m.extend c :: live) ∧
      Calm P P' (m :: live) ∧ P'.taken = P.taken ∧ P'.freed = P.freed ∧
      ∀ e ∈ live, e.holds c = false) ∨
    (P.mclfree = 0 ∧ kmemSize < P.kmem.kmemoffs + pageSize ∧
      mbufGetext A P m =
        some (if m.ext.meBuf = 0 then (1, m, P) else (0, m.extend m.ext.meBuf, P))) := by
  by_cases none : P.mclfree = 0
  · rcases wf.placed.take_page with ⟨refused, full⟩ | ⟨_, room, _⟩
    · right
      have fails := mclalloc_fails none (mbufClalloc_fails refused)
      refine ⟨none, full, ?_⟩
      simp only [mbufGetext, fails, Option.getD_none]
      by_cases zero : m.ext.meBuf = 0
      · simp only [zero, ne_eq, not_true_eq_false, if_false, plain, Bool.false_eq_true, if_true]
        rw [← zero]
      · simp only [zero, ne_eq, not_false_eq_true, if_true, if_false]
        rfl
    · left
      have reach : P.kmem.kmemoffs + pageSize ≤ refEntries * mclBytes := by
        rcases carvable with some | reach | full
        · exact absurd none some
        · exact reach
        · omega
      obtain ⟨P₁, carved, wf₁, calm, some, taken, freed, _⟩ := wf.carve room reach
      obtain ⟨member, wf₂⟩ := wf₁.extend plain some
      have given := (mclalloc_carves none carved some).trans (mclalloc_pops some (wf₁.tabled _ member))
      exact ⟨P₁.mclfree, _, mbufGetext_given given some, wf₂, ⟨calm.mem, calm.stale⟩, taken, freed,
        fun e h => wf₁.first_unused some (List.mem_cons_of_mem _ h)⟩
  · left
    obtain ⟨member, wf₂⟩ := wf.extend plain none
    have given := mclalloc_pops none (wf.tabled _ member)
    exact ⟨P.mclfree, _, mbufGetext_given given none, wf₂, ⟨fun _ _ _ _ _ => rfl, rfl⟩, rfl, rfl,
      fun e h => wf.first_unused none (List.mem_cons_of_mem _ h)⟩

end Embryo.Uipc
