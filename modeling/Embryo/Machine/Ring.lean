import Embryo.Machine.Loop

namespace Embryo.Machine

variable {α : Type}

def Circular (next : α → α) : List α → Prop
  | [] => True
  | head :: tail => List.IsChain (fun a b => next a = b) (head :: (tail ++ [head]))

theorem Circular.rotate {next : α → α} {left right : List α} (ring : Circular next (left ++ right)) :
    Circular next (right ++ left) := by
  cases left with
  | nil => simpa using ring
  | cons a left =>
    cases right with
    | nil => simpa using ring
    | cons b right =>
      have whole : List.IsChain (fun a b => next a = b) ((a :: left) ++ b :: (right ++ [a])) := by
        simpa [Circular] using ring
      obtain ⟨first, second⟩ := List.isChain_split.mp whole
      have joined : List.IsChain (fun a b => next a = b) ((b :: right) ++ a :: (left ++ [b])) :=
        List.isChain_split.mpr ⟨second, first⟩
      simpa [Circular] using joined

theorem Circular.turn {next : α → α} {head : α} {tail : List α} (ring : Circular next (head :: tail)) :
    Circular next (tail ++ [head]) :=
  @Circular.rotate _ _ [head] tail ring

theorem Circular.congr {next next' : α → α} {nodes : List α} (ring : Circular next nodes)
    (same : ∀ a ∈ nodes, next' a = next a) : Circular next' nodes := by
  cases nodes with
  | nil => trivial
  | cons head tail =>
    refine List.IsChain.imp_of_mem_imp ?_ ring
    intro a b memberA _ step
    rw [same a ?_, step]
    simpa [or_comm] using memberA

theorem chain_congr {next next' : α → α} {first last : α} {nodes : List α}
    (chain : List.IsChain (fun a b => next a = b) (first :: (nodes ++ [last])))
    (same : ∀ a ∈ first :: nodes, next' a = next a) :
    List.IsChain (fun a b => next' a = b) (first :: (nodes ++ [last])) := by
  induction nodes generalizing first with
  | nil =>
    simp only [List.nil_append, List.isChain_cons_cons, List.isChain_singleton, and_true] at chain ⊢
    rw [same first (by simp), chain]
  | cons node nodes ih =>
    simp only [List.cons_append, List.isChain_cons_cons] at chain ⊢
    refine ⟨by rw [same first (by simp), chain.1], ih chain.2 ?_⟩
    intro a member
    exact same a (List.mem_cons_of_mem _ member)

theorem Circular.insert {next next' : α → α} {node fresh : α} {rest : List α}
    (ring : Circular next (node :: rest)) (link : next' node = fresh) (onward : next' fresh = next node)
    (same : ∀ a ∈ rest, next' a = next a) : Circular next' (node :: fresh :: rest) := by
  simp only [Circular, List.cons_append, List.isChain_cons_cons]
  refine ⟨link, ?_⟩
  cases rest with
  | nil =>
    simp only [Circular, List.nil_append, List.isChain_cons_cons, List.isChain_singleton,
      and_true] at ring ⊢
    rw [onward, ring]
  | cons head tail =>
    simp only [Circular, List.cons_append, List.isChain_cons_cons] at ring ⊢
    exact ⟨by rw [onward, ring.1], chain_congr ring.2 same⟩

theorem Circular.remove {next next' : α → α} {node gone : α} {rest : List α}
    (ring : Circular next (node :: gone :: rest)) (link : next' node = next gone)
    (same : ∀ a ∈ rest, next' a = next a) : Circular next' (node :: rest) := by
  simp only [Circular, List.cons_append, List.isChain_cons_cons] at ring ⊢
  cases rest with
  | nil =>
    simp only [List.nil_append, List.isChain_cons_cons, List.isChain_singleton,
      and_true] at ring ⊢
    rw [link, ring.2]
  | cons head tail =>
    simp only [List.cons_append, List.isChain_cons_cons] at ring ⊢
    exact ⟨by rw [link, ring.2.1], chain_congr ring.2.2 same⟩

theorem Circular.replace {next next' : α → α} {node old fresh : α} {rest : List α}
    (ring : Circular next (node :: old :: rest)) (link : next' node = fresh)
    (onward : next' fresh = next old) (same : ∀ a ∈ rest, next' a = next a) :
    Circular next' (node :: fresh :: rest) := by
  simp only [Circular, List.cons_append, List.isChain_cons_cons] at ring ⊢
  refine ⟨link, ?_⟩
  cases rest with
  | nil =>
    simp only [List.nil_append, List.isChain_cons_cons, List.isChain_singleton,
      and_true] at ring ⊢
    rw [onward, ring.2]
  | cons head tail =>
    simp only [List.cons_append, List.isChain_cons_cons] at ring ⊢
    exact ⟨by rw [onward, ring.2.1], chain_congr ring.2.2 same⟩

theorem Circular.next_mem {next : α → α} {nodes : List α} (ring : Circular next nodes) {a : α}
    (member : a ∈ nodes) : next a ∈ nodes := by
  obtain ⟨left, right, rfl⟩ := List.append_of_mem member
  have turned := ring.rotate
  cases right with
  | nil =>
    cases left with
    | nil => simp [Circular] at turned; simp [turned]
    | cons b left => simp [Circular] at turned; simp [turned.1]
  | cons b right => simp [Circular] at turned; simp [turned.1]

theorem Circular.map_next {next : α → α} {head : α} {tail : List α} (ring : Circular next (head :: tail)) :
    (head :: tail).map next = tail ++ [head] := by
  have step : ∀ (a last : α) (nodes : List α),
      List.IsChain (fun a b => next a = b) (a :: (nodes ++ [last])) →
      (a :: nodes).map next = nodes ++ [last] := by
    intro a last nodes chain
    induction nodes generalizing a with
    | nil => simpa using chain
    | cons b nodes ih =>
      simp only [List.cons_append, List.isChain_cons_cons] at chain
      rw [List.map_cons, chain.1, ih b chain.2, List.cons_append]
  exact step head head tail ring

theorem Circular.next_injective {next : α → α} {nodes : List α} (ring : Circular next nodes)
    (nodup : nodes.Nodup) {a b : α} (memberA : a ∈ nodes) (memberB : b ∈ nodes)
    (same : next a = next b) : a = b := by
  cases nodes with
  | nil => cases memberA
  | cons head tail =>
    refine List.inj_on_of_nodup_map ?_ memberA memberB same
    rw [ring.map_next]
    exact (List.perm_append_singleton head tail).nodup_iff.mpr nodup

/-- A walk along the links that goes on at every node but the last ends at the last,
    wherever on the way it started. -/
theorem loop_to_end {β : Type} {body : α → Option (Pass α β)} {nodes : List α} {last start : α}
    {result : β} {fuel : Nat}
    (chain : List.IsChain (fun a b => body a = some (.again b)) (nodes ++ [last]))
    (left : body last = some (.leave result)) (member : start ∈ nodes ++ [last])
    (bound : nodes.length < fuel) : loop body fuel start = some result := by
  induction nodes generalizing fuel start with
  | nil =>
    simp only [List.nil_append, List.mem_singleton] at member
    subst start
    exact loop_leave bound left
  | cons a nodes ih =>
    simp only [List.length_cons] at bound
    have rest : List.IsChain (fun a b => body a = some (.again b)) (nodes ++ [last]) :=
      List.isChain_of_isChain_cons chain
    rcases List.mem_cons.mp member with rfl | member
    · obtain ⟨fuel, rfl⟩ : ∃ k, fuel = k + 1 := ⟨fuel - 1, by omega⟩
      cases nodes with
      | nil =>
        simp only [List.cons_append, List.nil_append, List.isChain_cons_cons] at chain
        rw [loop_again chain.1]
        exact ih rest (by simp) (by omega)
      | cons b nodes =>
        simp only [List.cons_append, List.isChain_cons_cons] at chain
        rw [loop_again chain.1]
        exact ih rest (by simp) (by omega)
    · exact ih rest member (by omega)

end Embryo.Machine
