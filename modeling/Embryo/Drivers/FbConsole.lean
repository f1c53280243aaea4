import Embryo.Drivers.Fb

namespace Embryo.Drivers.Fb

open Embryo.Machine

structure Fbcon where
  device : GraphicDevice
  colours : Colours
  bg : UInt32
  videoFontdata : Nat → UInt8

namespace Fbcon

variable (s : Fbcon)

def rawLimit : Nat := s.device.vsizeY / videoFontHeight

def colLimit : Nat := s.device.vsizeX / videoFontWidth

def consoleXsize : Nat := s.device.vsizeX

def drawfont (font : UInt8) (x y : Nat) (frame : Memory) : Memory :=
  s.device.fbDrawfont s.videoFontdata s.colours font (x * videoFontWidth) (y * videoFontHeight) frame

/-- The loops of `fbcon_scrollup` over the characters. -/
def redraw (map frame : Memory) : Memory :=
  (List.range' 1 (s.rawLimit - 1)).foldl (fun frame y =>
    let pos := y * s.colLimit
    (List.range s.colLimit).foldl (fun frame x =>
      if map (pos + x) ≠ map (pos - s.colLimit + x) then s.drawfont (map (pos + x)) x (y - 1) frame
        else frame) frame) frame

def fbconScrollup (map frame : Memory) : Option (Memory × Memory) :=
  let frame := s.redraw map frame
  match Lib.memcpy32Checked 0 s.colLimit ((s.rawLimit - 1) * s.colLimit / 4) map with
  | none => none
  | some map =>
    match Lib.memset32Checked ((s.rawLimit - 1) * s.colLimit) 0 (s.colLimit / 4) map with
    | none => none
    | some map =>
      some (map, s.device.fbSet32 (wrap ((s.rawLimit - 1) * s.consoleXsize * videoFontHeight))
        (wrap (s.consoleXsize * videoFontHeight)) s.bg frame)

/-- The whole frame is moved up by a row of characters, and the last row is cleared completely. -/
def plainScrollup (frame : Memory) : Memory :=
  s.device.setPixels ((s.rawLimit - 1) * s.consoleXsize * videoFontHeight)
    (s.consoleXsize * videoFontHeight) s.bg
    (s.device.fbMove 0 (s.consoleXsize * videoFontHeight)
      ((s.rawLimit - 1) * s.consoleXsize * videoFontHeight) frame)

/-- Every cell shows the character that the map has for it: to draw it again changes nothing. -/
def Shows (map frame : Memory) : Prop :=
  ∀ y < s.rawLimit, ∀ x < s.colLimit, s.drawfont (map (y * s.colLimit + x)) x y frame = frame

structure Scrolled (map frame : Memory) (out : Memory × Memory) : Prop where
  matrix : ∀ j < s.rawLimit * s.colLimit, out.1 j = if j < (s.rawLimit - 1) * s.colLimit then
    map (j + s.colLimit) else 0
  area : ∀ row < s.rawLimit * videoFontHeight, ∀ i < s.colLimit * s.device.gdfType.bpp,
    out.2 (s.device.place row i) = s.plainScrollup frame (s.device.place row i)

def ScrollsUp (map frame : Memory) : Prop :=
  ∃ out, s.fbconScrollup map frame = some out ∧ s.Scrolled map frame out

def Aligned : Prop :=
  ((s.rawLimit - 1) * s.colLimit / 4 ≠ 0 → s.colLimit % 4 = 0) ∧
    (s.colLimit / 4 ≠ 0 → (s.rawLimit - 1) * s.colLimit % 4 = 0)

/-- A byte that the drawing of some character stores. Where a line is not a whole number of units
    there are others in the text area. -/
def Drawn (z : Nat) : Prop :=
  ∃ y, ∃ r < videoFontHeight, ∃ t < s.colLimit * s.device.gdfType.bpp, z =
    s.device.place (y * videoFontHeight) (s.device.rowStart r + t)

/-- The words of the map are where words can be, what they leave out is right already, and so is
    what the characters leave out, and what `fb_set` does where the last row is the last of the
    frame. -/
structure LeavesNone (map frame : Memory) : Prop where
  aligned : s.Aligned
  moved : ∀ j, 4 * ((s.rawLimit - 1) * s.colLimit / 4) ≤ j → j < (s.rawLimit - 1) * s.colLimit →
    map j = map (j + s.colLimit)
  cleared : ∀ j, (s.rawLimit - 1) * s.colLimit + 4 * (s.colLimit / 4) ≤ j →
    j < s.rawLimit * s.colLimit → map j = 0
  drawn : ∀ row < (s.rawLimit - 1) * videoFontHeight, ∀ i < s.colLimit * s.device.gdfType.bpp,
    ¬s.Drawn (s.device.place row i) →
    frame (s.device.place row i) = frame (s.device.place (row + videoFontHeight) i)
  last : s.device.vsizeY % videoFontHeight = 0 → ∀ r < videoFontHeight,
    ∀ i < s.colLimit * s.device.gdfType.bpp,
    s.device.gdfType.passes ((s.rawLimit - 1) * s.consoleXsize * videoFontHeight)
      (s.consoleXsize * videoFontHeight - 1) *
        (s.device.gdfType.pixel s.bg).length ≤ r * s.device.lineSize + i →
      frame (s.device.place ((s.rawLimit - 1) * videoFontHeight + r) i) =
        (s.device.gdfType.pixel s.bg).getD ((r * s.device.lineSize + i) %
          (s.device.gdfType.pixel s.bg).length) 0

section

variable {s : Fbcon} {map frame : Memory}

def scrolledMap (s : Fbcon) (map : Memory) : Memory :=
  Lib.memset32 ((s.rawLimit - 1) * s.colLimit) 0 (s.colLimit / 4)
    (Lib.memcpy32 0 s.colLimit ((s.rawLimit - 1) * s.colLimit / 4) map)

def scrolledFrame (s : Fbcon) (map frame : Memory) : Memory :=
  s.device.fbSet32 (wrap ((s.rawLimit - 1) * s.consoleXsize * videoFontHeight))
    (wrap (s.consoleXsize * videoFontHeight)) s.bg
    (s.redraw map frame)

theorem fbconScrollup_some_iff {out : Memory × Memory} :
    s.fbconScrollup map frame = some out ↔ s.Aligned ∧
      out = (s.scrolledMap map, s.scrolledFrame map frame) := by
  unfold fbconScrollup Lib.memcpy32Checked Lib.memset32Checked
  by_cases moves : (s.rawLimit - 1) * s.colLimit / 4 ≠ 0 ∧ (0 % 4 ≠ 0 ∨ s.colLimit % 4 ≠ 0)
  · rw [if_pos moves]
    refine iff_of_false (by simp) fun both => ?_
    rcases moves.2 with zero | odd
    · exact zero rfl
    · exact odd (both.1.1 moves.1)
  · rw [if_neg moves]
    dsimp only
    by_cases clears : s.colLimit / 4 ≠ 0 ∧ (s.rawLimit - 1) * s.colLimit % 4 ≠ 0
    · rw [if_pos clears]
      exact iff_of_false (by simp) fun both => clears.2 (both.1.2 clears.1)
    · rw [if_neg clears]
      have aligned : s.Aligned :=
        ⟨fun some' => by_contra fun odd => moves ⟨some', .inr odd⟩, fun some' =>
          by_contra fun odd => clears ⟨some', odd⟩⟩
      rw [and_iff_right aligned, eq_comm, Option.some.injEq, scrolledMap, scrolledFrame]

theorem map_apply (map : Memory) (j : Nat) : s.scrolledMap map j =
    if j < 4 * ((s.rawLimit - 1) * s.colLimit / 4) then map (j + s.colLimit)
    else if (s.rawLimit - 1) * s.colLimit ≤ j ∧ j < (s.rawLimit - 1) * s.colLimit + 4 *
      (s.colLimit / 4) then 0 else map j := by
  have whole : 4 * ((s.rawLimit - 1) * s.colLimit / 4) ≤ (s.rawLimit - 1) * s.colLimit := Nat.mul_div_le _ 4
  rw [scrolledMap, Lib.memset32_zero, Lib.memcpy32_apply (Nat.zero_le _), Nat.zero_add,
    Nat.sub_zero, Nat.add_comm s.colLimit]
  by_cases moved : j < 4 * ((s.rawLimit - 1) * s.colLimit / 4)
  · rw [if_neg (by omega), if_pos ⟨Nat.zero_le _, moved⟩, if_pos moved]
  · have other : ¬(0 ≤ j ∧ j < 4 * ((s.rawLimit - 1) * s.colLimit / 4)) := fun both => moved both.2
    rw [if_neg moved, if_neg other]

theorem map_scrolls_iff (rows : 0 < s.rawLimit) :
    (∀ j < s.rawLimit * s.colLimit,
      s.scrolledMap map j = if j < (s.rawLimit - 1) * s.colLimit then map (j + s.colLimit) else 0) ↔
    (∀ j, 4 * ((s.rawLimit - 1) * s.colLimit / 4) ≤ j → j < (s.rawLimit - 1) * s.colLimit →
      map j = map (j + s.colLimit)) ∧
      ∀ j, (s.rawLimit - 1) * s.colLimit + 4 * (s.colLimit / 4) ≤ j → j < s.rawLimit * s.colLimit →
        map j = 0 := by
  have whole : 4 * ((s.rawLimit - 1) * s.colLimit / 4) ≤ (s.rawLimit - 1) * s.colLimit := Nat.mul_div_le _ 4
  have total : s.rawLimit * s.colLimit = (s.rawLimit - 1) * s.colLimit + s.colLimit := by
    rw [← Nat.succ_mul]
    congr 1
    omega
  constructor
  · intro all
    refine ⟨fun j low high => ?_, fun j low high => ?_⟩
    · have held := all j (by omega)
      rwa [map_apply, if_neg (by omega), if_neg (by omega), if_pos high] at held
    · have held := all j high
      rwa [map_apply, if_neg (by omega), if_neg (by omega), if_neg (by omega)] at held
  · intro ⟨moved, cleared⟩ j inside
    rw [map_apply]
    by_cases word : j < 4 * ((s.rawLimit - 1) * s.colLimit / 4)
    · rw [if_pos word, if_pos (by omega)]
    · rw [if_neg word]
      by_cases upper : j < (s.rawLimit - 1) * s.colLimit
      · rw [if_neg (by omega), if_pos upper, moved j (by omega) upper]
      · rw [if_neg upper]
        split
        · rfl
        · exact cleared j (by omega) inside

def glyph (s : Fbcon) (font : UInt8) (r i : Nat) : UInt8 :=
  (fontRow s.device.gdfType s.colours (s.videoFontdata (font.toNat * videoFontHeight + r))).getD i 0

theorem area_fits (whole : s.device.Whole) : s.colLimit * s.device.gdfType.bpp ≤ s.device.lineSize := by
  have line := whole.line
  have wide : s.colLimit * videoFontWidth * s.device.gdfType.bpp ≤ s.device.vsizeX * s.device.gdfType.bpp :=
    Nat.mul_le_mul_right _ (Nat.div_mul_le_self _ _)
  rw [← line, Nat.mul_right_comm, videoFontWidth] at wide
  omega

theorem area_inside (whole : s.device.Whole) {i : Nat} (inside : i < s.colLimit * s.device.gdfType.bpp) :
    i < s.device.lineSize ∧ 0 < s.device.vsizeX := by
  have line := whole.line
  have fits := area_fits whole
  refine ⟨by omega, Nat.pos_of_ne_zero fun none => ?_⟩
  rw [none, Nat.zero_mul] at line
  omega

theorem cells_inside {x i : Nat} (column : x < s.colLimit) (byte : i < s.device.gdfType.bpp) :
    x * s.device.gdfType.bpp + i < s.colLimit * s.device.gdfType.bpp := by
  have next : (x + 1) * s.device.gdfType.bpp ≤ s.colLimit * s.device.gdfType.bpp :=
    Nat.mul_le_mul_right _ column
  rw [Nat.add_mul] at next
  omega

theorem place_below {row row' i : Nat} (above : row < row') (low : i < s.device.lineSize) :
    s.device.place row i < s.device.place row' 0 := by
  have next : (row + 1) * s.device.lineSize ≤ row' * s.device.lineSize := Nat.mul_le_mul_right _ above
  rw [Nat.add_mul] at next
  simp only [GraphicDevice.place]
  omega

theorem spot_inside (whole : s.device.Whole) {r t : Nat} (short : r < videoFontHeight)
    (inside : t < s.colLimit * s.device.gdfType.bpp) :
    s.device.rowStart r + t < videoFontHeight * s.device.lineSize := by
  have low := (area_inside whole inside).1
  have start := GraphicDevice.rowStart_le (d := s.device) r
  have next : (r + 1) * s.device.lineSize ≤ videoFontHeight * s.device.lineSize :=
    Nat.mul_le_mul_right _ short
  rw [Nat.add_mul] at next
  omega

theorem spot_unique (whole : s.device.Whole) {y y' r r' t t' : Nat} (short : r < videoFontHeight)
    (short' : r' < videoFontHeight)
    (inside : t < s.colLimit * s.device.gdfType.bpp) (inside' : t' < s.colLimit * s.device.gdfType.bpp)
    (same : s.device.place (y * videoFontHeight) (s.device.rowStart r + t) =
      s.device.place (y' * videoFontHeight) (s.device.rowStart r' + t')) : y = y' ∧ r = r' ∧ t = t' := by
  have units := (GraphicDevice.unit_bpp s.device.gdfType).trans (Nat.dvd_mul_left _ s.colLimit)
  have fits := area_fits whole
  simp only [GraphicDevice.place, Nat.mul_assoc] at same
  obtain ⟨rfl, spots⟩ := place_inj (spot_inside whole short inside)
    (spot_inside whole short' inside') (Nat.add_left_cancel same)
  rcases Nat.lt_trichotomy r r' with above | rfl | below
  · have apart := GraphicDevice.rowStart_apart units fits above
    omega
  · exact ⟨rfl, rfl, Nat.add_left_cancel spots⟩
  · have apart := GraphicDevice.rowStart_apart units fits below
    omega

theorem drawn_at (whole : s.device.Whole) {font : UInt8} {x x' y row r i : Nat}
    (column : x < s.colLimit) (column' : x' < s.colLimit)
    (short : r < videoFontHeight) (byte : i < s.device.gdfType.bpp) {v : Nat × UInt8}
    (stored : v ∈ s.device.drawfontStores s.videoFontdata s.colours font (x' * videoFontWidth)
      (row * videoFontHeight))
    (here : v.1 = s.device.place (y * videoFontHeight)
      (s.device.rowStart r + (x * s.device.gdfType.bpp + i))) :
    row = y ∧ x' = x ∧ v.2 = s.glyph font r i := by
  obtain ⟨r', short', i', byte', place, value⟩ := GraphicDevice.mem_drawfont.mp stored
  obtain ⟨rfl, rfl, columns⟩ := spot_unique whole short' short (cells_inside column' byte')
    (cells_inside column byte)
    (place.symm.trans here)
  obtain ⟨rfl, rfl⟩ := place_inj byte' byte columns
  exact ⟨rfl, rfl, value⟩

theorem glyph_stored (s : Fbcon) (font : UInt8) (x y : Nat) {r i : Nat}
    (short : r < videoFontHeight) (byte : i < s.device.gdfType.bpp) :
    (s.device.place (y * videoFontHeight) (s.device.rowStart r + (x * s.device.gdfType.bpp + i)),
      s.glyph font r i) ∈
      s.device.drawfontStores s.videoFontdata s.colours font (x * videoFontWidth) (y * videoFontHeight) :=
  GraphicDevice.mem_drawfont.mpr ⟨r, short, i, byte, rfl, rfl⟩

theorem Shows.byte (shows : s.Shows map frame) (whole : s.device.Whole) {x y r i : Nat}
    (line : y < s.rawLimit) (column : x < s.colLimit)
    (short : r < videoFontHeight) (byte : i < s.device.gdfType.bpp) :
    frame (s.device.place (y * videoFontHeight) (s.device.rowStart r + (x * s.device.gdfType.bpp + i))) =
      s.glyph (map (y * s.colLimit + x)) r i := by
  rw [← shows y line x column]
  exact paint_value (fun v stored here => (drawn_at whole column column short byte stored here).2.2)
    (.inr ⟨_, glyph_stored s _ x y short byte, rfl⟩)

theorem redraw_eq (map frame : Memory) : s.redraw map frame =
    paint frame ((List.range' 1 (s.rawLimit - 1)).flatMap fun y => (List.range s.colLimit).flatMap fun x =>
      if map (y * s.colLimit + x) ≠ map (y * s.colLimit - s.colLimit + x) then
        s.device.drawfontStores s.videoFontdata s.colours (map (y * s.colLimit + x))
        (x * videoFontWidth) ((y - 1) * videoFontHeight)
      else []) := by
  rw [redraw, ← paint_flatMap]
  refine congrArg (fun f => List.foldl f frame _) ?_
  funext frame y
  rw [← paint_flatMap]
  refine congrArg (fun f => List.foldl f frame _) ?_
  funext frame x
  split <;> rfl

theorem redraw_row (whole : s.device.Whole) (shows : s.Shows map frame) {x y r i : Nat}
    (line : y + 1 < s.rawLimit)
    (column : x < s.colLimit) (short : r < videoFontHeight) (byte : i < s.device.gdfType.bpp) :
    s.redraw map frame (s.device.place (y * videoFontHeight)
      (s.device.rowStart r + (x * s.device.gdfType.bpp + i))) =
      s.glyph (map ((y + 1) * s.colLimit + x)) r i := by
  have before : (y + 1) * s.colLimit - s.colLimit = y * s.colLimit := by
    rw [Nat.add_mul, Nat.one_mul, Nat.add_sub_cancel]
  rw [redraw_eq]
  apply paint_value
  · intro v stored here
    obtain ⟨y', lines, stored⟩ := List.mem_flatMap.mp stored
    obtain ⟨x', columns, stored⟩ := List.mem_flatMap.mp stored
    obtain ⟨low, high⟩ := List.mem_range'_1.mp lines
    split at stored
    · obtain ⟨rows, rfl, value⟩ := drawn_at whole column (List.mem_range.mp columns) short byte stored here
      obtain rfl : y' = y + 1 := by omega
      exact value
    · cases stored
  · by_cases same : map ((y + 1) * s.colLimit + x) = map (y * s.colLimit + x)
    · left
      rw [same]
      exact shows.byte whole (by omega) column short byte
    · right
      have stored := glyph_stored s (map ((y + 1) * s.colLimit + x)) x y short byte
      refine ⟨(_, s.glyph (map ((y + 1) * s.colLimit + x)) r i),
        List.mem_flatMap.mpr ⟨y + 1, List.mem_range'_1.mpr ⟨by omega, by omega⟩,
        List.mem_flatMap.mpr ⟨x, List.mem_range.mpr column, ?_⟩⟩, rfl⟩
      rw [before, if_pos same]
      exact stored

theorem redraw_other (whole : s.device.Whole) {z : Nat}
    (other : s.Drawn z → s.device.place ((s.rawLimit - 1) * videoFontHeight) 0 ≤ z) :
    s.redraw map frame z = frame z := by
  rw [redraw_eq]
  apply paint_other
  rintro v stored rfl
  obtain ⟨y, lines, stored⟩ := List.mem_flatMap.mp stored
  obtain ⟨x, columns, stored⟩ := List.mem_flatMap.mp stored
  obtain ⟨low, high⟩ := List.mem_range'_1.mp lines
  split at stored
  · obtain ⟨r, short, i, byte, same, -⟩ := GraphicDevice.mem_drawfont.mp stored
    have inside := cells_inside (List.mem_range.mp columns) byte
    have below := other ⟨y - 1, r, short, _, inside, same⟩
    have spot := spot_inside whole short inside
    have next : (y - 1 + 1) * (videoFontHeight * s.device.lineSize) ≤
        (s.rawLimit - 1) * (videoFontHeight * s.device.lineSize) :=
      Nat.mul_le_mul_right _ (by omega)
    rw [Nat.add_mul] at next
    simp only [same, GraphicDevice.place, Nat.mul_assoc] at below
    omega
  · cases stored

theorem lastRow_start (whole : s.device.Whole) :
    (s.rawLimit - 1) * s.consoleXsize * videoFontHeight * s.device.gdfType.bpp / 8 =
      (s.rawLimit - 1) * videoFontHeight * s.device.lineSize := by
  have line := whole.line
  rw [Nat.mul_assoc, Nat.mul_assoc, consoleXsize, Nat.mul_left_comm s.device.vsizeX, ← line, Nat.mul_assoc,
    show (s.rawLimit - 1) * (videoFontHeight * (8 * s.device.lineSize)) =
      (s.rawLimit - 1) * (videoFontHeight * s.device.lineSize) * 8 by ring,
    Nat.mul_div_cancel _ (by decide)]

theorem lastRow_length (whole : s.device.Whole) :
    s.device.gdfType.passes ((s.rawLimit - 1) * s.consoleXsize * videoFontHeight)
    (s.consoleXsize * videoFontHeight) *
      (s.device.gdfType.pixel s.bg).length = videoFontHeight * s.device.lineSize := by
  have line := whole.line
  have passes := passes_whole s.device.gdfType s.bg ((s.rawLimit - 1) * s.consoleXsize * 2)
    (s.consoleXsize * 2)
  rw [Nat.mul_assoc _ 2 8, Nat.mul_assoc _ 2 8, consoleXsize, Nat.mul_right_comm s.device.vsizeX 2,
    ← line] at passes
  rw [videoFontHeight]
  exact passes.trans (by omega)

theorem fbSet32_last (framed : s.device.Framed) (rows : 0 < s.rawLimit) (wide : 0 < s.device.vsizeX)
    (frame : Memory) :
    s.device.fbSet32 (wrap ((s.rawLimit - 1) * s.consoleXsize * videoFontHeight))
    (wrap (s.consoleXsize * videoFontHeight)) s.bg frame =
      s.device.setPixels ((s.rawLimit - 1) * s.consoleXsize * videoFontHeight)
        (if s.device.vsizeY % videoFontHeight = 0 then s.consoleXsize * videoFontHeight - 1
          else s.consoleXsize * videoFontHeight)
        s.bg frame := by
  have size : s.consoleXsize * videoFontHeight + (s.rawLimit - 1) * s.consoleXsize * videoFontHeight =
      s.device.vsizeX * (s.rawLimit * videoFontHeight) := by
    obtain ⟨k, raw⟩ : ∃ k, s.rawLimit = k + 1 := ⟨s.rawLimit - 1, by omega⟩
    rw [raw, consoleXsize, Nat.add_sub_cancel]
    ring
  have raw : s.rawLimit * videoFontHeight + s.device.vsizeY % videoFontHeight = s.device.vsizeY :=
    Nat.div_add_mod' _ _
  have positive : 0 < s.consoleXsize * videoFontHeight := Nat.mul_pos wide (by decide)
  have bits : 0 < s.device.gdfType.bpp := by cases s.device.gdfType <;> decide
  have pixels : s.device.vsizeX * s.device.vsizeY < 2^32 :=
    lt_of_le_of_lt (Nat.le_mul_of_pos_right _ bits) framed.small
  have within : s.device.vsizeX * (s.rawLimit * videoFontHeight) ≤
    s.device.vsizeX * s.device.vsizeY := Nat.mul_le_mul_left _ (by omega)
  rw [wrap_of_lt (by omega), wrap_of_lt (by omega), GraphicDevice.fbSet32, if_neg (by omega),
    GraphicDevice.clipped, size,
    wrap_of_lt pixels, wrap_of_lt (by omega)]
  by_cases full : s.device.vsizeY % videoFontHeight = 0
  · rw [full, Nat.add_zero] at raw
    rw [if_pos full, raw, if_pos (Nat.le_refl _), wsub_of_le (by omega) pixels]
    rw [raw] at size
    rw [wsub_of_le (by omega) (by omega), ← framed.setStores (by omega)]
    congr 2
    omega
  · have beyond : s.device.vsizeX * (s.rawLimit * videoFontHeight) < s.device.vsizeX * s.device.vsizeY :=
      Nat.mul_lt_mul_of_pos_left (by omega) wide
    rw [if_neg full, if_neg (by omega), framed.setStores (by omega)]

/-- Above the last row both ways show the characters of the row below; other bytes are moved the
    plain way only. -/
theorem area_above (framed : s.device.Framed) (shows : s.Shows map frame) (rows : 0 < s.rawLimit)
    {row i : Nat}
    (above : row < (s.rawLimit - 1) * videoFontHeight) (inside : i < s.colLimit * s.device.gdfType.bpp) :
    s.scrolledFrame map frame (s.device.place row i) = s.plainScrollup frame (s.device.place row i) ↔
      (¬s.Drawn (s.device.place row i) → frame (s.device.place row i) =
        frame (s.device.place (row + videoFontHeight) i)) := by
  have whole := framed.whole
  obtain ⟨low, wide⟩ := area_inside whole inside
  have below := place_below above low
  have start := lastRow_start (s := s) whole
  have apart : ¬(s.device.vbase + (s.rawLimit - 1) * videoFontHeight * s.device.lineSize ≤
      s.device.place row i) := by
    simp only [GraphicDevice.place, Nat.add_zero] at below ⊢
    omega
  have fits : (s.rawLimit - 1 + 1) * videoFontHeight ≤ s.device.vsizeY := by
    rw [Nat.sub_add_cancel rows]
    exact Nat.div_mul_le_self _ _
  have moved := framed.fbMove_apply fits frame (s.device.place row i)
  rw [if_pos ⟨Nat.le_add_right _ _, below⟩] at moved
  have fast : s.scrolledFrame map frame (s.device.place row i) =
      s.redraw map frame (s.device.place row i) := by
    rw [scrolledFrame, fbSet32_last framed rows wide, GraphicDevice.setPixels_apply, start,
      if_neg fun both => apart both.1]
  have plain : s.plainScrollup frame (s.device.place row i) =
      frame (s.device.place row i + videoFontHeight * s.device.lineSize) := by
    rw [plainScrollup, GraphicDevice.setPixels_apply, start, if_neg fun both => apart both.1]
    exact moved
  have next : s.device.place row i + videoFontHeight * s.device.lineSize =
      s.device.place (row + videoFontHeight) i := by
    rw [GraphicDevice.place, GraphicDevice.place, Nat.add_mul]
    omega
  rw [fast, plain]
  by_cases drawn : s.Drawn (s.device.place row i)
  · refine ⟨fun _ other => absurd drawn other, fun _ => ?_⟩
    obtain ⟨y, r, short, t, spot, same⟩ := drawn
    have bits : 0 < s.device.gdfType.bpp := by cases s.device.gdfType <;> decide
    have column : t / s.device.gdfType.bpp < s.colLimit := Nat.div_lt_of_lt_mul (by rwa [Nat.mul_comm])
    have byte := Nat.mod_lt t bits
    have line : y < s.rawLimit - 1 := by
      by_contra beyond
      have after : (s.rawLimit - 1) * videoFontHeight * s.device.lineSize ≤
          y * videoFontHeight * s.device.lineSize :=
        Nat.mul_le_mul_right _ (Nat.mul_le_mul_right _ (by omega))
      rw [same, GraphicDevice.place] at apart
      omega
    have lower : s.device.place (y * videoFontHeight) (s.device.rowStart r + t) + videoFontHeight *
      s.device.lineSize =
        s.device.place ((y + 1) * videoFontHeight) (s.device.rowStart r + t) := by
      rw [GraphicDevice.place, GraphicDevice.place, Nat.add_mul, Nat.add_mul, Nat.one_mul]
      omega
    have shown := redraw_row whole shows (show y + 1 < s.rawLimit by omega) column short byte
    have stays := shows.byte whole (show y + 1 < s.rawLimit by omega) column short byte
    rw [Nat.div_add_mod'] at shown stays
    rw [same, lower, shown, stays]
  · rw [redraw_other whole fun some' => absurd some' drawn, next]
    exact ⟨fun equal _ => equal, fun equal => equal drawn⟩

theorem area_last (framed : s.device.Framed) (rows : 0 < s.rawLimit) {r i : Nat} (short : r < videoFontHeight)
    (inside : i < s.colLimit * s.device.gdfType.bpp) :
    s.scrolledFrame map frame (s.device.place ((s.rawLimit - 1) * videoFontHeight + r) i) =
        s.plainScrollup frame (s.device.place ((s.rawLimit - 1) * videoFontHeight + r) i) ↔
      (s.device.vsizeY % videoFontHeight = 0 →
        s.device.gdfType.passes ((s.rawLimit - 1) * s.consoleXsize * videoFontHeight)
        (s.consoleXsize * videoFontHeight - 1) *
            (s.device.gdfType.pixel s.bg).length ≤ r * s.device.lineSize + i →
          frame (s.device.place ((s.rawLimit - 1) * videoFontHeight + r) i) =
            (s.device.gdfType.pixel s.bg).getD ((r * s.device.lineSize + i) %
              (s.device.gdfType.pixel s.bg).length) 0) := by
  have whole := framed.whole
  obtain ⟨low, wide⟩ := area_inside whole inside
  have start := lastRow_start (s := s) whole
  have length := lastRow_length (s := s) whole
  have place : s.device.place ((s.rawLimit - 1) * videoFontHeight + r) i =
      s.device.vbase + (s.rawLimit - 1) * videoFontHeight * s.device.lineSize +
          (r * s.device.lineSize + i) := by
    rw [GraphicDevice.place, Nat.add_mul]
    omega
  have row : (r + 1) * s.device.lineSize ≤ videoFontHeight * s.device.lineSize := Nat.mul_le_mul_right _ short
  rw [Nat.add_mul] at row
  have same : s.redraw map frame (s.device.place ((s.rawLimit - 1) * videoFontHeight + r) i) =
      frame (s.device.place ((s.rawLimit - 1) * videoFontHeight + r) i) :=
    redraw_other whole fun _ => by rw [place, GraphicDevice.place]; omega
  rw [scrolledFrame, fbSet32_last framed rows wide, plainScrollup, GraphicDevice.setPixels_apply,
    GraphicDevice.setPixels_apply, start, length, same]
  generalize frame (s.device.place ((s.rawLimit - 1) * videoFontHeight + r) i) = old
  rw [place, Nat.add_sub_cancel_left]
  have inside : r * s.device.lineSize + i < videoFontHeight * s.device.lineSize := by omega
  generalize r * s.device.lineSize + i = o at inside ⊢
  have stored : ∀ count, (s.device.vbase + (s.rawLimit - 1) * videoFontHeight * s.device.lineSize ≤
      s.device.vbase + (s.rawLimit - 1) * videoFontHeight * s.device.lineSize + o ∧
      s.device.vbase + (s.rawLimit - 1) * videoFontHeight * s.device.lineSize + o <
        s.device.vbase + (s.rawLimit - 1) * videoFontHeight * s.device.lineSize + count) ↔
          o < count := by omega
  simp only [stored, if_pos inside]
  by_cases full : s.device.vsizeY % videoFontHeight = 0
  · rw [if_pos full]
    generalize s.device.gdfType.passes _ _ * _ = count
    by_cases set : o < count
    · rw [if_pos set]
      exact ⟨fun _ _ beyond => absurd set (Nat.not_lt.mpr beyond), fun _ => rfl⟩
    · rw [if_neg set]
      exact ⟨fun same _ _ => same, fun same => same full (Nat.le_of_not_lt set)⟩
  · rw [if_neg full, length, if_pos inside]
    exact ⟨fun _ none => absurd none full, fun _ => rfl⟩

theorem drawn_whole (units : s.device.gdfType.unit ∣ s.device.lineSize) (row : Nat) {i : Nat}
    (inside : i < s.colLimit * s.device.gdfType.bpp) : s.Drawn (s.device.place row i) := by
  refine ⟨row / videoFontHeight, row % videoFontHeight, Nat.mod_lt _ (by decide), i, inside, ?_⟩
  rw [GraphicDevice.rowStart_whole units, GraphicDevice.place, GraphicDevice.place,
    ← Nat.add_assoc (_ * s.device.lineSize) (_ * s.device.lineSize), ← Nat.add_mul, Nat.div_add_mod']

/-- The fast path scrolls as the plain move does exactly if its words, its characters and `fb_set`
    leave nothing out. -/
theorem scrollsUp_iff (map frame : Memory) (framed : s.device.Framed) (rows : 0 < s.rawLimit)
    (shows : s.Shows map frame) :
    s.ScrollsUp map frame ↔ s.LeavesNone map frame := by
  have total : s.rawLimit * videoFontHeight = (s.rawLimit - 1) * videoFontHeight + videoFontHeight := by
    rw [videoFontHeight]
    omega
  constructor
  · rintro ⟨out, done, scrolled⟩
    obtain ⟨aligned, rfl⟩ := fbconScrollup_some_iff.mp done
    obtain ⟨moved, cleared⟩ := (map_scrolls_iff rows).mp scrolled.matrix
    refine ⟨aligned, moved, cleared, fun row above i inside => ?_, fun full r short i inside => ?_⟩
    · exact (area_above framed shows rows above inside).mp (scrolled.area row (by omega) i inside)
    · exact (area_last framed rows short inside).mp (scrolled.area _ (by omega) i inside) full
  · intro none
    refine ⟨_, fbconScrollup_some_iff.mpr ⟨none.aligned, rfl⟩,
      (map_scrolls_iff rows).mpr ⟨none.moved, none.cleared⟩,
      fun row line i inside => ?_⟩
    by_cases above : row < (s.rawLimit - 1) * videoFontHeight
    · exact (area_above framed shows rows above inside).mpr (none.drawn row above i inside)
    · obtain ⟨r, rfl⟩ : ∃ r, row = (s.rawLimit - 1) * videoFontHeight + r :=
        ⟨row - (s.rawLimit - 1) * videoFontHeight, by omega⟩
      exact (area_last framed rows (by omega) inside).mpr fun full => none.last full r (by omega) i inside

theorem shows_uniform (map frame : Memory)
    (uniform : ∀ font, ∀ y < s.rawLimit, ∀ x < s.colLimit, ∀ r < videoFontHeight, ∀ i < s.device.gdfType.bpp,
      frame (s.device.place (y * videoFontHeight)
        (s.device.rowStart r + (x * s.device.gdfType.bpp + i))) = s.glyph font r i) :
    s.Shows map frame := by
  intro y line x column
  funext z
  refine paint_value (fun v stored here => ?_) (.inl rfl)
  obtain ⟨r, short, i, byte, place, value⟩ := GraphicDevice.mem_drawfont.mp stored
  rw [value, ← here, place, uniform _ y line x column r short i byte]
  rfl

end

def blocks (height : Nat) : Fbcon :=
  ⟨⟨4096, 32, height, .rgbx888⟩, ⟨0, 0xffffff, 0, 0, 0, 0⟩, 0, fun _ => 0xff⟩

def white : Memory := fun z => if z % 4 = 3 then 0 else 0xff

theorem blocks_line (height : Nat) : (blocks height).device.lineSize = 128 := by
  show 32 * 32 / 8 = 128
  decide

theorem blocks_whole (height : Nat) : (blocks height).device.Whole := ⟨128, show 32 * 32 = 8 * 128 by decide⟩

theorem blocks_framed (height : Nat) (low : height ≤ 40) : (blocks height).device.Framed := by
  refine ⟨blocks_whole height, ?_, ?_⟩
  · rw [blocks_line]
    show 4096 + height * 128 ≤ 2^32
    omega
  · show 32 * height * 32 < 2^32
    omega

theorem blocks_shows (height : Nat) (map : Memory) : (blocks height).Shows map white := by
  refine shows_uniform map white fun font y _ x _ r _ i byte => ?_
  have place : (blocks height).device.place (y * videoFontHeight)
    ((blocks height).device.rowStart r + (x * 32 + i)) =
      4 * (1024 + y * 512 + r * 32 + x * 8) + i := by
    have units : (blocks height).device.gdfType.unit ∣ (blocks height).device.lineSize := by
      rw [blocks_line]
      exact ⟨32, rfl⟩
    have start := GraphicDevice.rowStart_whole units r
    rw [start, GraphicDevice.place, videoFontHeight, blocks_line]
    show 4096 + (y * 16 * 128 + (r * 128 + (x * 32 + i))) = _
    omega
  have glyph : ∀ i < 32, (fontRow .rgbx888 ⟨0, 0xffffff, 0, 0, 0, 0⟩ 0xff).getD i 0 = if i % 4 =
    3 then 0 else 0xff := by decide
  show white ((blocks height).device.place (y * videoFontHeight)
    ((blocks height).device.rowStart r + (x * 32 + i))) = _
  rw [place, white, Nat.mul_add_mod]
  exact (glyph i byte).symm

theorem rows_scroll : (blocks 40).ScrollsUp (fun _ => 35) white := by
  have raw : (blocks 40).rawLimit = 2 := rfl
  have col : (blocks 40).colLimit = 4 := rfl
  refine (scrollsUp_iff (fun _ => 35) white (blocks_framed 40 (by decide)) (by decide)
    (blocks_shows 40 _)).mpr
    ⟨?_, ?_, ?_, ?_, fun full => absurd full (by decide)⟩
  · rw [Aligned, raw, col]
    decide
  · rw [raw, col]
    omega
  · rw [raw, col]
    omega
  · exact fun row _ i inside other => absurd (drawn_whole (by decide) row inside) other

/-- To the end of the frame: the last pixel stays white. -/
theorem last_pixel_stays : (blocks 32).Shows (fun _ => 35) white ∧
    ¬(blocks 32).ScrollsUp (fun _ => 35) white := by
  refine ⟨blocks_shows 32 _, ?_⟩
  rintro ⟨out, done, scrolled⟩
  obtain ⟨-, rfl⟩ := fbconScrollup_some_iff.mp done
  have byte : 124 < (blocks 32).colLimit * (blocks 32).device.gdfType.bpp := by decide
  have area := scrolled.area (((blocks 32).rawLimit - 1) * videoFontHeight + 15) (by decide) 124 byte
  dsimp only at area
  have last := (area_last (blocks_framed 32 (by decide)) (by decide) (by decide) byte).mp area
    (by decide) (by decide)
  exact absurd last (by decide)

end Fbcon

end Embryo.Drivers.Fb
