import Embryo.Drivers.Fb

namespace Embryo.Drivers.Fb

open Embryo.Machine

namespace GraphicDevice

variable (d : GraphicDevice)

def total : Nat := d.vsizeX * d.vsizeY

def pixelBytes : Nat := d.gdfType.bpp / 8

def pixelAt (p : Nat) : Nat := d.vbase + p * d.pixelBytes

structure Mapped : Prop where
  base : 0 < d.vbase
  top : d.pixelAt d.total ≤ 2^32

/-- The pixels from `dstPix` on, up to `n` of them, have the colour, and nothing else has changed. -/
structure Sets (dstPix n : Nat) (color : UInt32) (frame frame' : Memory) : Prop where
  pixels : ∀ p, dstPix ≤ p → p < min (dstPix + n) d.total → ∀ j < d.pixelBytes,
    frame' (d.pixelAt p + j) = (d.gdfType.pixel color).getD j 0
  others : ∀ z, ¬ (d.pixelAt dstPix ≤ z ∧ z < d.pixelAt (min (dstPix + n) d.total)) → frame' z = frame z

end GraphicDevice

theorem pixel_bytes {gdfType : Gdf} (bytes : 8 ≤ gdfType.bpp) (color : UInt32) :
    (gdfType.pixel color).length = gdfType.bpp / 8 := by
  cases gdfType
  case bit1 | bit2 | bit4 => exact absurd bytes (by decide)
  all_goals simp [Gdf.pixel, Gdf.bpp, le16, le32]

theorem bpp_bytes {gdfType : Gdf} (bytes : 8 ≤ gdfType.bpp) : gdfType.bpp = 8 * (gdfType.bpp / 8) := by
  cases gdfType
  case bit1 | bit2 | bit4 => exact absurd bytes (by decide)
  all_goals rfl

theorem passes_bytes {gdfType : Gdf} (bytes : 8 ≤ gdfType.bpp) (dstPix n : Nat) :
    gdfType.passes dstPix n = n := by
  cases gdfType
  case bit1 | bit2 | bit4 => exact absurd bytes (by decide)
  all_goals rfl

theorem other_byte (gdfType : Gdf) (color : UInt32) : ∃ v, v ∉ gdfType.pixel color := by
  have short : (gdfType.pixel color).length ≤ 4 := by cases gdfType <;> simp [Gdf.pixel, le16, le32]
  by_contra all
  simp only [not_exists, not_not] at all
  have five : ([0, 1, 2, 3, 4] : List UInt8).Nodup := by decide
  have long := (five.subperm fun v _ => all v).length_le
  exact absurd (long.trans short) (by decide)

namespace GraphicDevice

variable {d : GraphicDevice} {dstPix n : Nat} {color : UInt32} {frame : Memory}

theorem mem_setStores {s : Nat × UInt8} (bytes : 8 ≤ d.gdfType.bpp) :
    s ∈ d.setStores dstPix n color ↔ ∃ i < n, ∃ j, (d.gdfType.pixel color)[j]? = some s.2 ∧
      s.1 = wrap (d.vbase + wrap (dstPix * d.gdfType.bpp) / 8 + i * d.pixelBytes + j) := by
  rw [setStores, passes_bytes bytes, pixel_bytes bytes, pixelBytes]
  simp only [List.mem_flatMap, List.mem_range, List.mem_map, Prod.exists, List.mem_zipIdx_iff_getElem?]
  refine exists_congr fun i => and_congr_right fun _ => ?_
  constructor
  · rintro ⟨v, j, held, rfl⟩
    exact ⟨j, held, rfl⟩
  · rintro ⟨j, held, place⟩
    exact ⟨s.2, j, held, by rw [← place]⟩

theorem pixelAt_le {p q : Nat} (below : p ≤ q) : d.pixelAt p ≤ d.pixelAt q :=
  Nat.add_le_add_left (Nat.mul_le_mul_right _ below) _

theorem pixelAt_add (p q : Nat) : d.pixelAt (p + q) = d.pixelAt p + q * d.pixelBytes := by
  rw [pixelAt, pixelAt, Nat.add_mul, Nat.add_assoc]

section

variable (bytes : 8 ≤ d.gdfType.bpp)

include bytes

theorem pixelBytes_pos : 0 < d.pixelBytes := Nat.div_pos bytes (by decide)

theorem pixel_length : (d.gdfType.pixel color).length = d.pixelBytes := pixel_bytes bytes color

theorem first_byte : (d.gdfType.pixel color)[0]? = some ((d.gdfType.pixel color).getD 0 0) := by
  have some' : 0 < (d.gdfType.pixel color).length := pixel_length bytes ▸ pixelBytes_pos bytes
  rw [List.getD_eq_getElem _ _ some', List.getElem?_eq_getElem some']

theorem pixelAt_eq : d.vbase + dstPix * d.gdfType.bpp / 8 = d.pixelAt dstPix := by
  rw [pixelAt, pixelBytes, Nat.mul_div_assoc _ ⟨d.gdfType.bpp / 8, bpp_bytes bytes⟩]

theorem Mapped.total_lt (mapped : d.Mapped) : d.total < 2^32 := by
  have whole := Nat.le_mul_of_pos_right d.total (pixelBytes_pos bytes)
  have base := mapped.base
  have top := mapped.top
  rw [pixelAt] at top
  omega

theorem clipped_eq (mapped : d.Mapped) (inside : dstPix < d.total) :
    d.clipped dstPix n = if wrap (n + dstPix) ≥ d.total then d.total - 1 - dstPix else n := by
  have small := mapped.total_lt bytes
  have total : wrap (d.vsizeX * d.vsizeY) = d.total := wrap_of_lt small
  rw [clipped, total, wsub_of_le (Nat.one_le_of_lt inside) small,
    wsub_of_le (Nat.le_sub_one_of_lt inside) (by omega)]

theorem setStores_eq (mapped : d.Mapped) (fits : dstPix + n ≤ d.total)
    (place : dstPix * d.gdfType.bpp < 2^32) :
    paint frame (d.setStores dstPix n color) = d.setPixels dstPix n color frame := by
  rw [setStores, setPixels, wrap_of_lt place, pixelAt_eq bytes, passes_bytes bytes]
  congr 1
  apply List.flatMap_congr
  intro i inside
  apply List.map_congr_left
  rintro ⟨v, j⟩ member
  have short := (List.getElem?_eq_some_iff.mp (List.mem_zipIdx_iff_getElem?.mp member)).1
  have next : d.pixelAt (dstPix + (i + 1)) ≤ d.pixelAt d.total :=
    pixelAt_le (by have less := List.mem_range.mp inside; omega)
  have top := mapped.top
  rw [pixelAt_add, Nat.add_mul] at next
  rw [pixel_length bytes] at short ⊢
  dsimp only at short ⊢
  rw [wrap_of_lt (by omega)]

theorem setPixels_sets (fits : dstPix + n ≤ d.total) :
    d.Sets dstPix n color frame (d.setPixels dstPix n color frame) := by
  refine ⟨fun p low high j inside => ?_, fun z outside => ?_⟩
  · obtain ⟨k, rfl⟩ := Nat.exists_eq_add_of_le low
    have row : (k + 1) * d.pixelBytes ≤ n * d.pixelBytes := Nat.mul_le_mul_right _ (by omega)
    rw [Nat.add_mul] at row
    rw [setPixels_apply, pixelAt_eq bytes, passes_bytes bytes, pixel_length bytes, pixelAt_add,
      if_pos (by omega), Nat.add_assoc, Nat.add_sub_cancel_left,
      Nat.mul_comm, Nat.mul_add_mod, Nat.mod_eq_of_lt inside]
  · rw [Nat.min_eq_left fits, pixelAt_add] at outside
    rw [setPixels_apply, pixelAt_eq bytes, passes_bytes bytes, pixel_length bytes, if_neg outside]

theorem stores_inside {k : Nat}
    (sets : ∀ frame, d.Sets dstPix n color frame (paint frame (d.setStores dstPix k color)))
    {s : Nat × UInt8} (member : s ∈ d.setStores dstPix k color) :
    d.pixelAt dstPix ≤ s.1 ∧ s.1 < d.pixelAt (min (dstPix + n) d.total) := by
  obtain ⟨v, other⟩ := other_byte d.gdfType color
  by_contra outside
  have kept := (sets fun _ => v).others s.1 outside
  obtain ⟨t, inside, -, value⟩ := @paint_stored (fun _ => v) _ s member
  obtain ⟨i, -, j, held, -⟩ := (mem_setStores bytes).mp inside
  rw [kept] at value
  exact other (value ▸ List.mem_of_getElem? held)

theorem sets_place (mapped : d.Mapped) {k : Nat}
    (sets : ∀ frame, d.Sets dstPix n color frame (paint frame (d.setStores dstPix k color)))
    (inside : dstPix < d.total) (some' : n ≠ 0) : k ≠ 0 ∧ dstPix * d.gdfType.bpp < 2^32 := by
  have positive := pixelBytes_pos bytes
  have passed : k ≠ 0 := by
    rintro rfl
    obtain ⟨v, other⟩ := other_byte d.gdfType color
    have set := (sets fun _ => v).pixels dstPix (Nat.le_refl _) (by omega) 0 positive
    have none : d.setStores dstPix 0 color = [] := by rw [setStores, passes_bytes bytes]; rfl
    rw [none] at set
    change v = _ at set
    exact other (set ▸ List.mem_of_getElem? (first_byte bytes))
  refine ⟨passed, ?_⟩
  have member : (wrap (d.vbase + wrap (dstPix * d.gdfType.bpp) / 8),
      (d.gdfType.pixel color).getD 0 0) ∈ d.setStores dstPix k color :=
    (mem_setStores bytes).mpr ⟨0, Nat.pos_of_ne_zero passed, 0, first_byte bytes, by rw [Nat.zero_mul]; rfl⟩
  have low := (stores_inside bytes sets member).1
  have before : d.pixelAt dstPix < d.pixelAt d.total :=
    Nat.add_lt_add_left (Nat.mul_lt_mul_of_pos_right inside positive) _
  have whole : dstPix * d.gdfType.bpp = 8 * (dstPix * d.pixelBytes) := by
    rw [pixelBytes, Nat.mul_left_comm, ← bpp_bytes bytes]
  have top := mapped.top
  have wrapped : wrap (dstPix * d.gdfType.bpp) ≤ dstPix * d.gdfType.bpp := Nat.mod_le _ _
  have bound := wrap_lt (dstPix * d.gdfType.bpp)
  rw [pixelAt] at low before
  dsimp only at low
  rw [wrap_of_lt (by omega)] at low
  omega

theorem last_left_out (mapped : d.Mapped) (inside : dstPix < d.total) (reach : d.total ≤ dstPix + n)
    (place : dstPix * d.gdfType.bpp < 2^32) :
    ¬ ∀ frame, d.Sets dstPix n color frame
      (paint frame (d.setStores dstPix (d.total - 1 - dstPix) color)) := by
  intro sets
  obtain ⟨v, other⟩ := other_byte d.gdfType color
  have set := (sets fun _ => v).pixels (d.total - 1) (by omega) (by omega) 0 (pixelBytes_pos bytes)
  rw [setStores_eq bytes mapped (by omega) place, Nat.add_zero] at set
  have before : d.total - 1 - dstPix + dstPix = d.total - 1 := by omega
  have kept : d.setPixels dstPix (d.total - 1 - dstPix) color (fun _ => v) (d.pixelAt (d.total - 1)) = v := by
    apply (setPixels_sets bytes (by omega)).others
    rw [Nat.min_eq_left (by omega), Nat.add_comm dstPix, before]
    exact fun both => Nat.lt_irrefl _ both.2
  rw [kept] at set
  exact other (set ▸ List.mem_of_getElem? (first_byte bytes))

theorem stores_behind (mapped : d.Mapped) (inside : dstPix < d.total) (more : d.total - dstPix < n)
    (place : dstPix * d.gdfType.bpp < 2^32) :
    ¬ ∀ frame, d.Sets dstPix n color frame (paint frame (d.setStores dstPix n color)) := by
  intro sets
  have member : (wrap (d.pixelAt d.total), (d.gdfType.pixel color).getD 0 0) ∈ d.setStores dstPix n color :=
    (mem_setStores bytes).mpr ⟨d.total - dstPix, more, 0, first_byte bytes, by
      rw [wrap_of_lt place, pixelAt_eq bytes, ← pixelAt_add, Nat.add_sub_cancel' inside.le, Nat.add_zero]⟩
  obtain ⟨low, high⟩ := stores_inside bytes sets member
  have positive := pixelBytes_pos bytes
  rw [Nat.min_eq_right (by omega)] at high
  have top := mapped.top
  have base := mapped.base
  have above : d.vbase ≤ d.pixelAt dstPix := Nat.le_add_right _ _
  simp only [wrap] at low high
  omega

end

/-- `fb_set` sets the pixels it is asked to exactly when there are none, or when they end before the
    last one of the screen and the first of them is found by 32 bits. -/
theorem fbSet32_sets_iff (d : GraphicDevice) (dstPix n : Nat) (color : UInt32)
    (bytes : 8 ≤ d.gdfType.bpp) (mapped : d.Mapped) (inside : dstPix < d.total) :
    (∀ frame, d.Sets dstPix n color frame (d.fbSet32 dstPix n color frame)) ↔
      n = 0 ∨ dstPix + n < d.total ∧ dstPix * d.gdfType.bpp < 2^32 := by
  have small := mapped.total_lt bytes
  have count := clipped_eq (n := n) bytes mapped inside
  by_cases none : n = 0
  · refine iff_of_true (fun frame => ?_) (.inl none)
    rw [fbSet32, if_pos none]
    exact ⟨fun p low high => absurd high (by omega), fun _ _ => rfl⟩
  have asked : ∀ frame, d.fbSet32 dstPix n color frame =
      paint frame (d.setStores dstPix (d.clipped dstPix n) color) :=
    fun frame => if_neg none
  simp only [none, false_or, asked]
  constructor
  · intro sets
    obtain ⟨passed, place⟩ := sets_place bytes mapped sets inside none
    refine ⟨?_, place⟩
    by_contra beyond
    by_cases clip : wrap (n + dstPix) ≥ d.total
    · rw [if_pos clip] at count
      rw [count] at sets
      exact last_left_out bytes mapped inside (by omega) place sets
    · rw [if_neg clip] at count
      rw [count] at sets
      refine stores_behind bytes mapped inside ?_ place sets
      by_contra few
      rw [wrap_of_lt (by omega)] at clip
      omega
  · rintro ⟨fits, place⟩ frame
    rw [wrap_of_lt (by omega), if_neg (by omega)] at count
    rw [count, setStores_eq bytes mapped (by omega) place]
    exact setPixels_sets bytes (by omega)

def tiny : GraphicDevice := ⟨4096, 8, 2, .rgb565⟩

theorem tiny_sets : tiny.Sets 3 5 0x1234 (fun _ => 0) (tiny.fbSet32 3 5 0x1234 fun _ => 0) :=
  (fbSet32_sets_iff tiny 3 5 0x1234 (by decide) ⟨by decide, by decide⟩ (by decide)).mpr (.inr (by decide)) _

/-- The second line, up to the last pixel of the screen, which keeps its colour. -/
theorem last_pixel_kept : ¬ ∀ frame, tiny.Sets 8 8 0x1234 frame (tiny.fbSet32 8 8 0x1234 frame) := by
  intro sets
  have last := (sets fun _ => 0).pixels 15 (by decide) (by decide) 0 (by decide)
  exact absurd last (by decide)

end GraphicDevice

end Embryo.Drivers.Fb
