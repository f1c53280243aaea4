import Embryo.Machine.Bytes

namespace Embryo.Machine

abbrev Stores := List (Nat × UInt8)

def paint (mem : Memory) (stores : Stores) : Memory :=
  stores.foldl (fun mem s => Function.update mem s.1 s.2) mem

def storesAt (a : Nat) (xs : List UInt8) : Stores := xs.zipIdx.map fun x => (a + x.2, x.1)

theorem mem_storesAt {a : Nat} {xs : List UInt8} {s : Nat × UInt8} :
    s ∈ storesAt a xs ↔ ∃ i, xs[i]? = some s.2 ∧ s.1 = a + i := by
  obtain ⟨z, v⟩ := s
  constructor
  · intro member
    obtain ⟨x, inside, same⟩ := List.mem_map.mp member
    cases same
    exact ⟨x.2, List.mem_zipIdx_iff_getElem?.mp inside, rfl⟩
  · rintro ⟨i, inside, place⟩
    cases place
    exact List.mem_map.mpr ⟨(v, i), List.mem_zipIdx_iff_getElem?.mpr inside, rfl⟩

theorem paint_append (mem : Memory) (first second : Stores) :
    paint mem (first ++ second) = paint (paint mem first) second :=
  List.foldl_append

theorem paint_flatMap {α : Type} (f : α → Stores) (mem : Memory) (l : List α) :
    l.foldl (fun mem a => paint mem (f a)) mem = paint mem (l.flatMap f) := by
  induction l generalizing mem with
  | nil => rfl
  | cons a l ih => rw [List.foldl_cons, ih, List.flatMap_cons, paint_append]

theorem paint_other {mem : Memory} {stores : Stores} {z : Nat} (other : ∀ s ∈ stores, s.1 ≠ z) :
    paint mem stores z = mem z := by
  induction stores generalizing mem with
  | nil => rfl
  | cons s stores ih =>
    rw [List.forall_mem_cons] at other
    exact (ih other.2).trans (Function.update_of_ne (Ne.symm other.1) _ _)

theorem paint_value {mem : Memory} {stores : Stores} {z : Nat} {v : UInt8}
    (agree : ∀ s ∈ stores, s.1 = z → s.2 = v)
    (there : mem z = v ∨ ∃ s ∈ stores, s.1 = z) : paint mem stores z = v := by
  induction stores generalizing mem with
  | nil => exact there.resolve_right fun ⟨_, member, _⟩ => List.not_mem_nil member
  | cons s stores ih =>
    rw [List.forall_mem_cons] at agree
    refine ih agree.2 ?_
    dsimp only
    by_cases here : s.1 = z
    · left
      rw [← here, Function.update_self, agree.1 here]
    · rw [Function.update_of_ne (Ne.symm here)]
      exact there.imp_right fun ⟨t, member, same⟩ =>
        ⟨t, (List.mem_cons.mp member).resolve_left fun first => here (first ▸ same), same⟩

theorem paint_stored {mem : Memory} {stores : Stores} {s : Nat × UInt8} (member : s ∈ stores) :
    ∃ t ∈ stores, t.1 = s.1 ∧ paint mem stores s.1 = t.2 := by
  induction stores generalizing mem s with
  | nil => cases member
  | cons first rest ih =>
    by_cases later : ∃ t ∈ rest, t.1 = s.1
    · obtain ⟨t, inRest, same⟩ := later
      obtain ⟨last, inside, place, value⟩ := @ih (Function.update mem first.1 first.2) t inRest
      rw [same] at place value
      exact ⟨last, List.mem_cons_of_mem first inside, place, value⟩
    · have none : ∀ t ∈ rest, t.1 ≠ s.1 := fun t inRest same => later ⟨t, inRest, same⟩
      obtain rfl := (List.mem_cons.mp member).resolve_right fun inRest => none s inRest rfl
      refine ⟨s, List.mem_cons_self, rfl, ?_⟩
      exact (paint_other none).trans (Function.update_self _ _ _)

theorem place_inj {l q t q' t' : Nat} (low : t < l) (low' : t' < l)
    (same : q * l + t = q' * l + t') : q = q' ∧ t = t' := by
  have positive : 0 < l := by omega
  have row := congrArg (· / l) same
  have rest := congrArg (· % l) same
  simp only [Nat.add_comm (_ * l), Nat.add_mul_div_right _ _ positive, Nat.div_eq_of_lt low,
    Nat.div_eq_of_lt low', Nat.zero_add] at row
  simp only [Nat.add_comm (_ * l), Nat.add_mul_mod_self_right, Nat.mod_eq_of_lt low,
    Nat.mod_eq_of_lt low'] at rest
  exact ⟨row, rest⟩

end Embryo.Machine
