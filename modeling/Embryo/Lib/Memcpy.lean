import Embryo.Machine.Bytes

namespace Embryo.Lib

open Embryo.Machine

def memcpy (mem : Memory) (d s n : Nat) : Memory :=
  if s < d then bcopyDown s d n mem else bcopyUp s d n mem

theorem memcpy_eq (mem : Memory) (d s n : Nat) : memcpy mem d s n = bcopy mem s d n := rfl

/-- The `n` bytes from `d` on are what was stored from `s` on before, and the other bytes are what
    they were. -/
structure Copied (mem mem' : Memory) (s d n : Nat) : Prop where
  moved : bytes mem' d n = bytes mem s n
  others : SameBut d n mem mem'

theorem bcopy_copied (mem : Memory) (s d n : Nat) : Copied mem (bcopy mem s d n) s d n where
  moved := bytes_bcopy mem s d n
  others := fun _ outside => bcopy_outside outside

/-- Both copy whichever way the two ranges overlap. -/
theorem copies_overlap (mem : Memory) (s d n : Nat) :
    Copied mem (bcopy mem s d n) s d n ∧ Copied mem (memcpy mem d s n) s d n := by
  rw [memcpy_eq]
  exact ⟨bcopy_copied mem s d n, bcopy_copied mem s d n⟩

end Embryo.Lib
