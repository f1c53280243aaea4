import Mathlib

namespace Embryo.Machine

variable {κ α : Type}

def gather (keys : List κ) (slot : κ → List α) : List α := keys.flatMap slot

theorem gather_split [DecidableEq κ] {keys : List κ} {k : κ} (member : k ∈ keys) (slot : κ → List α) :
    (gather keys slot).Perm (slot k ++ gather (keys.erase k) slot) :=
  (List.perm_cons_erase member).flatMap_right slot

theorem gather_congr {keys : List κ} {slot slot' : κ → List α} (same : ∀ k ∈ keys, slot' k = slot k) :
    gather keys slot' = gather keys slot := List.flatMap_congr same

theorem gather_update [DecidableEq κ] {keys : List κ} (nodup : keys.Nodup) {k : κ}
    (member : k ∈ keys) (slot : κ → List α) (held : List α) :
    (gather keys (Function.update slot k held) ++ slot k).Perm (gather keys slot ++ held) := by
  have rest : gather (keys.erase k) (Function.update slot k held) = gather (keys.erase k) slot := by
    apply gather_congr
    intro j other
    apply Function.update_of_ne
    rintro rfl
    exact nodup.not_mem_erase other
  have after := gather_split member (Function.update slot k held)
  rw [rest, Function.update_self] at after
  have before := gather_split member slot
  have swap : (held ++ gather (keys.erase k) slot ++ slot k).Perm
      (slot k ++ gather (keys.erase k) slot ++ held) := by
    rw [List.append_assoc, List.append_assoc]
    apply List.perm_append_comm.trans
    rw [List.append_assoc]
    exact List.perm_append_comm_assoc _ _ _
  exact (after.append_right _).trans (swap.trans (before.symm.append_right _))

end Embryo.Machine
