import Embryo.Kmem.Run
import Embryo.Uipc.Mbuf

namespace Embryo.Uipc

open Embryo.Machine
open Embryo.Kmem (Arena Inv kmemMalloc kmemFree kmemAlloc kmemSize pageSize)

def hold (m : Mbuf) : Kmem.Holding := ⟨m.addr, msize⟩
def Mbuf.block (m : Mbuf) : Region := ⟨m.addr, msize⟩
def cluster (c : Nat) : Region := ⟨c, mclBytes⟩
def page (p : Nat) : Region := ⟨p, pageSize⟩

def halves (p : Nat) : List Nat := [p + mclBytes, p]

/-- The arena holds the mbufs, the pages of the clusters carved so far, the reference counts,
    and `fixed` and `foreign` memory that belongs to others. -/
structure Laid (A : Arena) (k : Kmem.State) (mclrefcnt : Nat) (pages : List Nat) (live : List Mbuf)
    (fixed : List Region) (foreign : List Kmem.Holding) : Prop where
  kmem : ∃ chunks regions,
    Inv A k (pages.map page ++ fixed) (live.map hold ++ foreign) chunks regions
  aligned : ∀ p ∈ pages, A.kmembase ≤ p ∧ (p - A.kmembase) % pageSize = 0
  table : ⟨mclrefcnt, refTable⟩ ∈ foreign

def Placed (A : Arena) (k : Kmem.State) (mclrefcnt : Nat) (carved : List Nat) (live : List Mbuf) : Prop :=
  ∃ pages fixed foreign, Laid A k mclrefcnt pages live fixed foreign ∧ carved = pages.flatMap halves

section

variable {A : Arena} {k : Kmem.State} {mclrefcnt : Nat} {carved : List Nat} {live : List Mbuf}

theorem Placed.perm {live' : List Mbuf} (placed : Placed A k mclrefcnt carved live)
    (perm : live.Perm live') : Placed A k mclrefcnt carved live' := by
  obtain ⟨pages, fixed, foreign, laid, same⟩ := placed
  obtain ⟨chunks, regions, inv⟩ := laid.kmem
  have moved := inv.perm (List.Perm.refl _) ((perm.map hold).append_right foreign)
  exact ⟨pages, fixed, foreign, { laid with kmem := ⟨chunks, regions, moved⟩ }, same⟩

theorem Placed.congr {live' : List Mbuf} (placed : Placed A k mclrefcnt carved live)
    (same : live'.map Mbuf.addr = live.map Mbuf.addr) : Placed A k mclrefcnt carved live' := by
  obtain ⟨pages, fixed, foreign, laid, cut⟩ := placed
  obtain ⟨chunks, regions, inv⟩ := laid.kmem
  have holdings : live'.map hold = live.map hold := by
    have wrapped := congrArg (List.map (fun a => (⟨a, msize⟩ : Kmem.Holding))) same
    rw [List.map_map, List.map_map] at wrapped
    exact wrapped
  rw [← holdings] at inv
  exact ⟨pages, fixed, foreign, { laid with kmem := ⟨chunks, regions, inv⟩ }, cut⟩

theorem Placed.free {m : Mbuf} (placed : Placed A k mclrefcnt carved (m :: live)) :
    ∃ k', kmemFree A k m.addr = some k' ∧ Placed A k' mclrefcnt carved live ∧
      k'.kmemoffs = k.kmemoffs := by
  obtain ⟨pages, fixed, foreign, laid, cut⟩ := placed
  obtain ⟨chunks, regions, inv⟩ := laid.kmem
  have held : hold m ∈ (m :: live).map hold ++ foreign := by simp
  obtain ⟨freed, after⟩ := inv.push_chunk held (by simp only [hold]; decide) rfl
  rw [List.map_cons, List.cons_append, List.erase_cons_head] at after
  exact ⟨_, freed, ⟨pages, fixed, foreign, ⟨⟨_, _, after⟩, laid.aligned, laid.table⟩, cut⟩, rfl⟩

theorem Placed.get (placed : Placed A k mclrefcnt carved live) :
    kmemMalloc A k msize = (0, k) ∨
      ∃ p k', kmemMalloc A k msize = (p, k') ∧ p ≠ 0 ∧ k.kmemoffs ≤ k'.kmemoffs ∧
        ∀ m : Mbuf, m.addr = p → Placed A k' mclrefcnt carved (m :: live) := by
  obtain ⟨pages, fixed, foreign, laid, cut⟩ := placed
  obtain ⟨chunks, regions, inv⟩ := laid.kmem
  rcases inv.malloc (show msize + 4095 < 2^32 by decide) with failed | ⟨p, k', given, served⟩
  · exact .inl failed
  · obtain ⟨chunks', regions', after⟩ := served.inv
    refine .inr ⟨p, k', given, served.nonzero, served.offs, ?_⟩
    rintro m rfl
    exact ⟨pages, fixed, foreign, { laid with kmem := ⟨chunks', regions', after⟩ }, cut⟩

theorem Placed.take_page (placed : Placed A k mclrefcnt carved live) :
    (kmemAlloc A k (1 * Kmem.clBytes) = (0, k) ∧ kmemSize < k.kmemoffs + pageSize) ∨
      (kmemAlloc A k (1 * Kmem.clBytes) =
          (A.kmembase + k.kmemoffs, { k with kmemoffs := k.kmemoffs + pageSize }) ∧
        k.kmemoffs + pageSize ≤ kmemSize ∧ k.kmemoffs % pageSize = 0 ∧
        Placed A { k with kmemoffs := k.kmemoffs + pageSize } mclrefcnt
          (halves (A.kmembase + k.kmemoffs) ++ carved) live) := by
  obtain ⟨pages, fixed, foreign, laid, rfl⟩ := placed
  obtain ⟨chunks, regions, inv⟩ := laid.kmem
  have whole : 1 * Kmem.clBytes % pageSize = 0 := by decide
  by_cases room : k.kmemoffs + pageSize ≤ kmemSize
  · refine .inr ⟨Kmem.kmemAlloc_grants whole room, room, inv.offsPage, ?_⟩
    refine ⟨(A.kmembase + k.kmemoffs) :: pages, fixed, foreign, ?_, rfl⟩
    refine ⟨⟨_, _, inv.take_pages (by decide) rfl room⟩, ?_, laid.table⟩
    intro p member
    rcases List.mem_cons.mp member with rfl | member
    · have := inv.offsPage
      exact ⟨Nat.le_add_right _ _, by rw [Nat.add_sub_cancel_left]; exact this⟩
    · exact laid.aligned p member
  · have full : kmemSize < k.kmemoffs + pageSize := by omega
    exact .inl ⟨Kmem.kmemAlloc_fails whole (by decide) inv.offsLe full, full⟩

variable (placed : Placed A k mclrefcnt carved live)

include placed

theorem Placed.offs_le : k.kmemoffs ≤ kmemSize := by
  obtain ⟨pages, fixed, foreign, laid, rfl⟩ := placed
  obtain ⟨chunks, regions, inv⟩ := laid.kmem
  exact inv.offsLe

theorem Placed.cluster_place {c : Nat} (member : c ∈ carved) :
    A.kmembase ≤ c ∧ (c - A.kmembase) % mclBytes = 0 ∧ c + mclBytes ≤ A.kmembase + k.kmemoffs := by
  obtain ⟨pages, fixed, foreign, laid, rfl⟩ := placed
  obtain ⟨chunks, regions, inv⟩ := laid.kmem
  obtain ⟨p, memberP, memberC⟩ := List.mem_flatMap.mp member
  obtain ⟨low, whole⟩ := laid.aligned p memberP
  have region : page p ∈ regions :=
    inv.fixedMem _ (List.mem_append_left _ (List.mem_map_of_mem memberP))
  have high := (inv.bounds _ region).2.1
  simp only [page, Region.stop, pageSize] at *
  simp only [halves, List.mem_cons, List.not_mem_nil, or_false, mclBytes, mclShift] at *
  omega

theorem Placed.cluster_bounds {c : Nat} (member : c ∈ carved) : 0 < c ∧ c + mclBytes < 2^32 := by
  have place := placed.cluster_place member
  have offs := placed.offs_le
  have := A.positive
  have := A.fits
  omega

theorem Placed.mtocl_eq {c : Nat} (member : c ∈ carved) : c = A.kmembase + mtocl A c * mclBytes := by
  have place := placed.cluster_place member
  have bounds := placed.cluster_bounds member
  simp only [mtocl, mclBytes, mclShift] at *
  rw [wsub_of_le place.1 (by omega)]
  omega

theorem Placed.mtocl_injective {c d : Nat} (memberC : c ∈ carved) (memberD : d ∈ carved)
    (same : mtocl A c = mtocl A d) : c = d := by
  rw [placed.mtocl_eq memberC, placed.mtocl_eq memberD, same]

theorem Placed.clusters_apart {c d : Nat} (memberC : c ∈ carved) (memberD : d ∈ carved)
    (different : c ≠ d) : Region.Apart (cluster c) (cluster d) := by
  have placeC := placed.cluster_place memberC
  have placeD := placed.cluster_place memberD
  simp only [Region.Apart, Region.stop, cluster, mclBytes, mclShift] at *
  omega

theorem Placed.block_cluster {m : Mbuf} {c : Nat} (memberM : m ∈ live) (memberC : c ∈ carved) :
    Region.Apart m.block (cluster c) := by
  obtain ⟨pages, fixed, foreign, laid, rfl⟩ := placed
  obtain ⟨chunks, regions, inv⟩ := laid.kmem
  obtain ⟨p, memberP, inPage⟩ := List.mem_flatMap.mp memberC
  have apart := inv.parts_apart
  simp only [Kmem.parts, List.append_assoc, List.map_append, List.map_map] at apart
  have cross := (List.pairwise_append.mp apart).2.2 (page p) (List.mem_map_of_mem memberP) m.block (by
    simp only [List.mem_append, List.mem_map]
    exact .inr (.inl ⟨m, memberM, rfl⟩))
  apply cross.symm.mono
  · exact ⟨Nat.le_refl _, Nat.le_refl _⟩
  · simp only [halves, List.mem_cons, List.not_mem_nil, or_false, mclBytes, mclShift] at inPage
    simp only [Region.Within, Region.stop, cluster, page, pageSize, mclBytes, mclShift]
    omega

theorem Placed.block_below {m : Mbuf} (member : m ∈ live) :
    m.block.stop ≤ A.kmembase + k.kmemoffs := by
  obtain ⟨pages, fixed, foreign, laid, rfl⟩ := placed
  obtain ⟨chunks, regions, inv⟩ := laid.kmem
  have held := inv.held (hold m) (List.mem_append_left _ (List.mem_map_of_mem member))
  exact (inv.bounds _ held.1).2.1

theorem Placed.blocks_apart : (live.map Mbuf.block).Pairwise Region.Apart := by
  obtain ⟨pages, fixed, foreign, laid, rfl⟩ := placed
  obtain ⟨chunks, regions, inv⟩ := laid.kmem
  apply List.Pairwise.sublist _ inv.parts_apart
  simp only [Kmem.parts, List.map_append, List.map_map]
  have here : List.Sublist (live.map Mbuf.block) (live.map (Kmem.Holding.region ∘ hold)) :=
    List.Sublist.refl _
  apply here.trans
  apply (List.sublist_append_left _ _).trans
  apply List.Sublist.trans (List.sublist_append_right _ _)
  exact List.sublist_append_left _ _

end

end Embryo.Uipc
