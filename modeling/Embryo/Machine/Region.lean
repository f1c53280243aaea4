import Mathlib

namespace Embryo.Machine

structure Region where
  addr : Nat
  size : Nat
deriving DecidableEq, Repr

namespace Region

def stop (r : Region) : Nat := r.addr + r.size

def Apart (r q : Region) : Prop := r.stop ≤ q.addr ∨ q.stop ≤ r.addr

def Within (r q : Region) : Prop := q.addr ≤ r.addr ∧ r.stop ≤ q.stop

/-- No byte of `r` lies in `q`; unlike `Apart` this is said of empty regions too. -/
def Clear (r q : Region) : Prop := ∀ x, r.addr ≤ x → x < r.stop → ¬ (q.addr ≤ x ∧ x < q.stop)

theorem Clear.mono {r q r' q' : Region} (clear : Clear r q) (left : Within r' r)
    (right : Within q' q) : Clear r' q' := by
  intro x low high inside
  simp only [Within] at *
  exact clear x (by omega) (by omega) (by omega)

theorem Apart.clear {r q : Region} (apart : Apart r q) : Clear r q := by
  intro x low high inside
  simp only [Apart] at apart
  omega

theorem Apart.symm {r q : Region} (apart : Apart r q) : Apart q r := Or.symm apart

instance : Std.Symm Apart := ⟨fun _ _ apart => apart.symm⟩

theorem Apart.mono {r q r' q' : Region} (apart : Apart r q) (left : Within r' r)
    (right : Within q' q) : Apart r' q' := by
  simp only [Apart, Within] at *
  omega

theorem apart_of_mem {regions : List Region} (apart : regions.Pairwise Apart) {r q : Region}
    (memberR : r ∈ regions) (memberQ : q ∈ regions) (different : r ≠ q) : Apart r q :=
  apart.forall memberR memberQ different

theorem pairwise_of_subset {regions part : List Region} (apart : regions.Pairwise Apart)
    (nodup : part.Nodup) (subset : ∀ r ∈ part, r ∈ regions) : part.Pairwise Apart := by
  apply List.Pairwise.imp_of_mem _ nodup
  intro r q memberR memberQ different
  exact apart_of_mem apart (subset r memberR) (subset q memberQ) different

end Region

end Embryo.Machine
