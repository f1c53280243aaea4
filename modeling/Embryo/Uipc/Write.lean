import Embryo.Uipc.Chain
import Embryo.Uipc.Counts

namespace Embryo.Uipc

open Embryo.Machine
open Embryo.Kmem (Arena)

def Mbuf.Fit (m : Mbuf) : Prop := m.room.addr ≤ m.data ∧ m.data + m.len ≤ m.room.stop

variable {A : Arena} {P : Pool} {live : List Mbuf}

theorem flatten_append (mem : Memory) (m n : Chain) :
    flatten mem (m ++ n) = flatten mem m ++ flatten mem n := List.flatMap_append

theorem flatten_cons (mem : Memory) (m : Mbuf) (n : Chain) :
    flatten mem (m :: n) = bytes mem m.data m.len ++ flatten mem n := List.flatMap_cons

theorem total_cons (m : Mbuf) (n : Chain) : total (m :: n) = m.len + total n := List.sum_cons

theorem total_append (m n : Chain) : total (m ++ n) = total m + total n := by
  rw [total, List.map_append, List.sum_append, total, total]

@[simp] theorem flatten_length (mem : Memory) (m : Chain) : (flatten mem m).length = total m := by
  induction m with
  | nil => rfl
  | cons m n ih => rw [flatten_cons, List.length_append, bytes_length, ih, total_cons]

theorem Calm.flatten_eq {P' : Pool} (calm : Calm P P' live) {chain : Chain}
    (subset : ∀ m ∈ chain, m ∈ live) (fit : ∀ m ∈ chain, m.Fit) :
    flatten P'.mem chain = flatten P.mem chain := by
  apply List.flatMap_congr
  intro m member
  apply bytes_congr
  intro x low high
  obtain ⟨start, stop⟩ := fit m member
  exact calm.mem m (subset m member) x (by omega) (by omega)

theorem Wf.room_lt (wf : Wf A P live) {m : Mbuf} (member : m ∈ live) : m.room.stop < 2^32 := by
  have below := wf.room_below member
  have offs := wf.placed.offs_le
  have fits := A.fits
  omega

theorem Wf.write (wf : Wf A P live) {n : Mbuf} (member : n ∈ live) {mem : Memory}
    (frame : ∀ x, ¬ (n.room.addr ≤ x ∧ x < n.room.stop) → mem x = P.mem x) :
    Wf A { P with mem } live := by
  obtain ⟨nodes, free⟩ := wf.listed
  refine ⟨wf.placed, wf.tabled, wf.counted, wf.blank,
    ⟨nodes, ?_, free.nodup, free.unused, free.freemcl⟩, wf.exts, wf.types⟩
  apply free.linked.congr
  intro c listed
  obtain ⟨carved, unused⟩ := (free.unused c).mp listed
  have apart := wf.room_cluster member carved (not_holds member unused)
  apply load32_congr
  intro x low high
  apply frame
  simp only [Region.Apart, Region.stop, cluster, mclBytes, mclShift] at *
  omega

theorem Wf.block_apart {n : Mbuf} (wf : Wf A P (n :: live)) {m : Mbuf} (member : m ∈ live) :
    Region.Apart m.room n.block := by
  cases shared : m.flags.ext with
  | true =>
    obtain ⟨room, carved⟩ := wf.room_ext (List.mem_cons_of_mem _ member) shared
    rw [room]
    exact (wf.placed.block_cluster List.mem_cons_self carved).symm
  | false =>
    have apart := (List.pairwise_cons.mp wf.placed.blocks_apart).1 m.block (List.mem_map_of_mem member)
    exact apart.symm.mono (room_within shared) ⟨Nat.le_refl _, Nat.le_refl _⟩

theorem Wf.rooms_apart {n : Mbuf} (wf : Wf A P (n :: live)) (plain : n.flags.ext = false) {m : Mbuf}
    (member : m ∈ live) : Region.Apart m.room n.room :=
  (wf.block_apart member).mono ⟨Nat.le_refl _, Nat.le_refl _⟩ (room_within plain)

theorem Wf.rooms_alone {n : Mbuf} (wf : Wf A P (n :: live)) {m : Mbuf} (member : m ∈ live)
    (alone : n.flags.ext = true → m.flags.ext = true → m.ext.meBuf ≠ n.ext.meBuf) :
    Region.Apart m.room n.room := by
  by_cases plain : n.flags.ext = false
  · exact wf.rooms_apart plain member
  · have held : n.flags.ext = true := by simpa using plain
    obtain ⟨room, carved⟩ := wf.room_ext List.mem_cons_self held
    rw [room]
    apply wf.room_cluster (List.mem_cons_of_mem _ member) carved
    rw [Mbuf.holds, Bool.and_eq_false_imp]
    exact fun shared => by simpa using alone held shared

theorem Wf.fill {n : Mbuf} (wf : Wf A P (n :: live)) (plain : n.flags.ext = false) {src dst count : Nat}
    (low : n.room.addr ≤ dst) (high : dst + count ≤ n.room.stop) :
    P.fill n src dst count = some { P with mem := bcopy P.mem src dst count } ∧
      Wf A { P with mem := bcopy P.mem src dst count } (n :: live) ∧
      Calm P { P with mem := bcopy P.mem src dst count } live := by
  refine ⟨if_pos (.inr ⟨low, high⟩), ?_, ⟨?_, rfl⟩⟩
  · apply wf.write List.mem_cons_self
    intro x outside
    exact bcopy_outside (by omega)
  · intro m member x start stop
    have apart := wf.rooms_apart plain member
    apply bcopy_outside
    simp only [Region.Apart, Region.stop] at *
    omega

theorem Wf.share {n n' m : Mbuf} (wf : Wf A P (n :: live)) (plain : n.flags.ext = false)
    (member : m ∈ live) (shared : m.flags.ext = true) (addr : n'.addr = n.addr)
    (type : n'.type = n.type) (flag : n'.flags.ext = true) (ext : n'.ext = m.ext) :
    ∃ P', P.count (mtocl A m.ext.meBuf) 1 = some P' ∧ Wf A P' (n' :: live) ∧
      Calm P P' live ∧ P'.mem = P.mem ∧ P'.taken = P.taken ∧ P'.freed = P.freed ∧ P'.kmem = P.kmem := by
  obtain ⟨carved, free, ref⟩ := wf.exts m (List.mem_cons_of_mem _ member) shared
  have holds : ∀ d, n'.holds d = (m.ext.meBuf == d) := by
    intro d
    simp only [Mbuf.holds, flag, ext, Bool.true_and]
  have before : ∀ d, holders (n :: live) d = holders live d := by
    intro d
    rw [holders_cons]
    simp [Mbuf.holds, plain]
  have others : ∀ d, d ≠ m.ext.meBuf → holders (n' :: live) d = holders (n :: live) d := by
    intro d different
    rw [before, holders_cons, holds]
    simp [Ne.symm different]
  have self : holders (n' :: live) m.ext.meBuf = holders (n :: live) m.ext.meBuf + 1 := by
    rw [before, holders_cons, holds]
    simp
  have used : holders (n :: live) m.ext.meBuf ≠ 0 := by
    intro zero
    have := not_holds (List.mem_cons_of_mem n member) zero
    simp [Mbuf.holds, shared] at this
  obtain ⟨nodes, list⟩ := wf.listed
  refine ⟨_, Pool.count_eq (wf.tabled _ carved) 1, ⟨wf.placed.congr ?_, wf.tabled, ?_, ?_, ?_, ?_, ?_⟩,
    ⟨fun _ _ _ _ _ => rfl, rfl⟩, rfl, rfl, rfl, rfl⟩
  · simp only [List.map_cons, addr]
  · intro d memberD
    simp only
    by_cases same : d = m.ext.meBuf
    · rw [same, Function.update_self, wf.counted _ carved, self]
      push_cast
      rfl
    · have index : mtocl A d ≠ mtocl A m.ext.meBuf :=
        fun equal => same (wf.placed.mtocl_injective memberD carved equal)
      rw [Function.update_of_ne index, wf.counted d memberD, others d same]
  · intro i less outside
    simp only
    rw [Function.update_of_ne (Ne.symm (outside _ carved)), wf.blank i less outside]
  · refine ⟨nodes, list.linked, list.nodup, ?_, list.freemcl⟩
    intro d
    rw [list.unused d]
    by_cases same : d = m.ext.meBuf
    · rw [same, self]
      simp [used]
    · rw [others d same]
  · intro k memberK sharedK
    rcases List.mem_cons.mp memberK with rfl | memberK
    · rw [ext]
      exact ⟨carved, free, ref⟩
    · exact wf.exts k (List.mem_cons_of_mem _ memberK) sharedK
  · intro k memberK
    rcases List.mem_cons.mp memberK with rfl | memberK
    · rw [type]
      exact wf.types n List.mem_cons_self
    · exact wf.types k (List.mem_cons_of_mem _ memberK)

end Embryo.Uipc
