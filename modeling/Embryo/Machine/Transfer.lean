import Mathlib

namespace Embryo.Machine

variable {α β : Type} [DecidableEq α]

def put (mem : α → β) : List α → List β → α → β
  | d :: dst, x :: xs => put (Function.update mem d x) dst xs
  | _, _ => mem

def transfer (mem : α → β) (dst src : List α) : α → β := put mem dst (src.map mem)

theorem put_outside (mem : α → β) {dst : List α} (xs : List β) {a : α} (outside : a ∉ dst) :
    put mem dst xs a = mem a := by
  induction dst generalizing mem xs with
  | nil => rfl
  | cons d dst ih =>
    cases xs with
    | nil => rfl
    | cons x xs =>
      obtain ⟨other, later⟩ := List.ne_and_not_mem_of_not_mem_cons outside
      rw [put, ih _ _ later, Function.update_of_ne other]

theorem put_append (mem : α → β) {dst : List α} {xs : List β} (length : dst.length = xs.length)
    (dst' : List α) (xs' : List β) :
    put mem (dst ++ dst') (xs ++ xs') = put (put mem dst xs) dst' xs' := by
  induction dst generalizing mem xs with
  | nil =>
    obtain rfl := List.eq_nil_of_length_eq_zero length.symm
    rfl
  | cons d dst ih =>
    cases xs with
    | nil => cases length
    | cons x xs => exact ih _ (Nat.succ_inj.mp length)

theorem put_read (mem : α → β) {dst : List α} {xs : List β} (differ : dst.Nodup)
    (length : dst.length = xs.length) :
    dst.map (put mem dst xs) = xs := by
  induction dst generalizing mem xs with
  | nil => exact (List.eq_nil_of_length_eq_zero length.symm).symm
  | cons d dst ih =>
    cases xs with
    | nil => cases length
    | cons x xs =>
      obtain ⟨first, rest⟩ := List.nodup_cons.mp differ
      rw [List.map_cons, put, put_outside _ _ first, Function.update_self, ih _ rest (Nat.succ_inj.mp length)]

theorem transfer_outside (mem : α → β) {dst : List α} (src : List α) {a : α} (outside : a ∉ dst) :
    transfer mem dst src a = mem a := put_outside mem _ outside

theorem transfer_read (mem : α → β) {dst src : List α} (differ : dst.Nodup)
    (length : dst.length = src.length) :
    dst.map (transfer mem dst src) = src.map mem := put_read mem differ (by rw [List.length_map, length])

theorem transfer_append (mem : α → β) {dst src dst' src' : List α} (length : dst.length = src.length)
    (apart : ∀ a ∈ src', a ∉ dst) :
    transfer mem (dst ++ dst') (src ++ src') = transfer (transfer mem dst src) dst' src' := by
  have kept : src'.map (transfer mem dst src) = src'.map mem :=
    List.map_congr_left fun a member => transfer_outside mem src (apart a member)
  unfold transfer at kept ⊢
  rw [List.map_append, put_append mem (by rw [List.length_map, length]), kept]

end Embryo.Machine
