import Embryo.Uipc.Copydata
import Embryo.Uipc.Ledger

namespace Embryo.Uipc

open Embryo.Machine
open Embryo.Kmem (Arena kmemMalloc)

variable {A : Arena} {P P' : Pool} {live : List Mbuf} {k : Kmem.State} {mclrefcnt p size : Nat}
  {carved : List Nat}

theorem Placed.buffer (placed : Placed A k mclrefcnt carved live) (bound : size + 4095 < 2^32) :
    kmemMalloc A k size = (0, k) ∨
      ∃ p k', kmemMalloc A k size = (p, k') ∧ p ≠ 0 ∧ Placed A k' mclrefcnt carved live ∧
        (∀ m ∈ live, Region.Apart m.block ⟨p, size⟩) ∧ ∀ c ∈ carved, Region.Apart (cluster c) ⟨p, size⟩ := by
  obtain ⟨pages, fixed, foreign, laid, cut⟩ := placed
  obtain ⟨chunks, regions, inv⟩ := laid.kmem
  rcases inv.malloc bound with failed | ⟨p, k', given, served⟩
  · exact .inl failed
  · right
    obtain ⟨chunks', regions', after⟩ := served.inv
    have within : Region.Within ⟨p, size⟩ (Kmem.Holding.region ⟨p, size⟩) :=
      ⟨Nat.le_refl p, Nat.add_le_add_left (Kmem.nbytes_le_blockSize bound) p⟩
    have apart := after.parts_apart
    simp only [Kmem.parts, List.append_assoc, List.map_append, List.map_cons, List.cons_append] at apart
    have split := List.pairwise_append.mp apart
    have moved := after.perm (List.Perm.refl _) List.perm_middle.symm
    refine ⟨p, k', given, served.nonzero, ⟨pages, fixed, ⟨p, size⟩ :: foreign,
      ⟨⟨_, _, moved⟩, laid.aligned, ?_⟩, cut⟩, ?_, ?_⟩
    · exact List.mem_cons_of_mem _ laid.table
    · intro m member
      have others := (List.pairwise_cons.mp (List.pairwise_append.mp split.2.1).2.1).1 m.block (by
        simp only [List.mem_append, List.map_map, List.mem_map]
        exact .inl ⟨m, member, rfl⟩)
      exact others.symm.mono ⟨Nat.le_refl _, Nat.le_refl _⟩ within
    · intro c member
      rw [cut] at member
      obtain ⟨q, memberQ, inPage⟩ := List.mem_flatMap.mp member
      have cross := split.2.2 (page q) (List.mem_map_of_mem memberQ) (Kmem.Holding.region ⟨p, size⟩)
        (List.mem_append_right _ List.mem_cons_self)
      refine cross.mono ?_ within
      simp only [halves, List.mem_cons, List.not_mem_nil, or_false, mclBytes, mclShift] at inPage
      simp only [Region.Within, Region.stop, cluster, page, Kmem.pageSize, mclBytes, mclShift]
      omega

theorem Wf.buffer_write (wf : Wf A P live) {mem : Memory} (placed : Placed A k P.mclrefcnt P.carved live)
    (clusters : ∀ c ∈ P.carved, Region.Apart (cluster c) ⟨p, size⟩) (frame : SameBut p size P.mem mem) :
    Wf A { P with kmem := k, mem } live := by
  obtain ⟨nodes, free⟩ := wf.listed
  refine ⟨placed, wf.tabled, wf.counted, wf.blank,
    ⟨nodes, ?_, free.nodup, free.unused, free.freemcl⟩, wf.exts, wf.types⟩
  apply free.linked.congr
  intro c listed
  have apart := clusters c ((free.unused c).mp listed).1
  apply load32_congr
  intro x low high
  apply frame
  simp only [Region.Apart, Region.stop, cluster, mclBytes, mclShift] at apart
  omega

theorem Wf.room_buffer (wf : Wf A P live) (blocks : ∀ m ∈ live, Region.Apart m.block ⟨p, size⟩)
    (clusters : ∀ c ∈ P.carved, Region.Apart (cluster c) ⟨p, size⟩) {m : Mbuf} (member : m ∈ live) :
    Region.Apart m.room ⟨p, size⟩ := by
  cases shared : m.flags.ext with
  | true =>
    obtain ⟨room, carved⟩ := wf.room_ext member shared
    rw [room]
    exact clusters _ carved
  | false => exact (blocks m member).mono (room_within shared) ⟨Nat.le_refl _, Nat.le_refl _⟩

theorem mclfree_frame {c x : Nat} (outside : ¬ (c ≤ x ∧ x < c + 4)) (released : mclfree A P c = some P') :
    P'.mem x = P.mem x := by
  simp only [mclfree, Pool.count] at released
  split at released
  · cases released
  · rename_i found
    split at found
    · cases found
      split at released
      · cases released
        exact store32_outside outside
      · cases released
        rfl
    · cases found

theorem mbufFree_frame {m : Mbuf} {x : Nat}
    (outside : m.flags.ext = true → ¬ (m.ext.meBuf ≤ x ∧ x < m.ext.meBuf + 4))
    (freed : mbufFree A P m = some P') : P'.mem x = P.mem x := by
  have untyped : (P.untype m.type).mem = P.mem := rfl
  unfold mbufFree at freed
  generalize P.untype m.type = Q at *
  dsimp only at freed
  split at freed
  · cases freed
  · rename_i R released
    have same : R.mem x = P.mem x := by
      rw [← untyped]
      split at released
      · rename_i shared
        split at released
        · cases released
        · exact mclfree_frame (outside shared) released
      · cases released
        rfl
    split at freed
    · cases freed
    · cases freed
      exact same

theorem mbufFreem_frame {chain : Chain} {x : Nat}
    (outside : ∀ m ∈ chain, m.flags.ext = true → ¬ (m.ext.meBuf ≤ x ∧ x < m.ext.meBuf + 4))
    (freed : mbufFreem A P chain = some P') : P'.mem x = P.mem x := by
  induction chain generalizing P with
  | nil =>
    cases freed
    rfl
  | cons m rest ih =>
    rw [mbufFreem] at freed
    split at freed
    · cases freed
    · rename_i Q call
      rw [ih (fun e member => outside e (List.mem_cons_of_mem _ member)) freed]
      exact mbufFree_frame (outside m List.mem_cons_self) call

end Embryo.Uipc
