import Embryo.Machine.Paint
import Embryo.Machine.Word
import Embryo.Lib.Mem32

namespace Embryo.Drivers.Fb

open Embryo.Machine

inductive Gdf where
  | rgb332
  | rgb555
  | rgb565
  | rgb888
  | rgbx888
  | bit1
  | bit2
  | bit4
deriving DecidableEq

def Gdf.bpp : Gdf → Nat
  | rgb332 => 8
  | rgb555 => 16
  | rgb565 => 16
  | rgb888 => 24
  | rgbx888 => 32
  | bit1 => 1
  | bit2 => 2
  | bit4 => 4

structure GraphicDevice where
  vbase : Nat
  vsizeX : Nat
  vsizeY : Nat
  gdfType : Gdf

structure Colours where
  bgx : UInt32
  fgx : UInt32
  bgx1 : UInt32
  fgx1 : UInt32
  bgx2 : UInt32
  fgx2 : UInt32

def videoFontWidth : Nat := 8

def videoFontHeight : Nat := 16

def fontBitmapTab2 : List UInt32 :=
  [0x00, 0x03, 0x0c, 0x0f, 0x30, 0x33, 0x3c, 0x3f, 0xc0, 0xc3, 0xcc, 0xcf, 0xf0, 0xf3, 0xfc, 0xff]

def fontBitmapTab4 : List UInt32 :=
  [0x0000, 0x000f, 0x00f0, 0x00ff, 0x0f00, 0x0f0f, 0x0ff0, 0x0fff,
   0xf000, 0xf00f, 0xf0f0, 0xf0ff, 0xff00, 0xff0f, 0xfff0, 0xffff]

def fontBitmapTab8 : List UInt32 :=
  [0x00000000, 0x000000ff, 0x0000ff00, 0x0000ffff, 0x00ff0000, 0x00ff00ff, 0x00ffff00, 0x00ffffff,
   0xff000000, 0xff0000ff, 0xff00ff00, 0xff00ffff, 0xffff0000, 0xffff00ff, 0xffffff00, 0xffffffff]

def fontBitmapTab15 : List UInt32 :=
  [0x00000000, 0x00007fff, 0x7fff0000, 0x7fff7fff]

def fontBitmapTab16 : List UInt32 :=
  [0x00000000, 0x0000ffff, 0xffff0000, 0xffffffff]

def fontBitmapTab24 : List (List UInt32) :=
  [[0x00000000, 0x00000000, 0x00000000], [0x00000000, 0x00000000, 0x00ffffff],
   [0x00000000, 0x0000ffff, 0xff000000], [0x00000000, 0x0000ffff, 0xffffffff],
   [0x000000ff, 0xffff0000, 0x00000000], [0x000000ff, 0xffff0000, 0x00ffffff],
   [0x000000ff, 0xffffffff, 0xff000000], [0x000000ff, 0xffffffff, 0xffffffff],
   [0xffffff00, 0x00000000, 0x00000000], [0xffffff00, 0x00000000, 0x00ffffff],
   [0xffffff00, 0x0000ffff, 0xff000000], [0xffffff00, 0x0000ffff, 0xffffffff],
   [0xffffffff, 0xffff0000, 0x00000000], [0xffffffff, 0xffff0000, 0x00ffffff],
   [0xffffffff, 0xffffffff, 0xff000000], [0xffffffff, 0xffffffff, 0xffffffff]]

def fontBitmapTab32 : List (List UInt32) :=
  [[0x00000000, 0x00000000, 0x00000000, 0x00000000], [0x00000000, 0x00000000, 0x00000000, 0x00ffffff],
   [0x00000000, 0x00000000, 0x00ffffff, 0x00000000], [0x00000000, 0x00000000, 0x00ffffff, 0x00ffffff],
   [0x00000000, 0x00ffffff, 0x00000000, 0x00000000], [0x00000000, 0x00ffffff, 0x00000000, 0x00ffffff],
   [0x00000000, 0x00ffffff, 0x00ffffff, 0x00000000], [0x00000000, 0x00ffffff, 0x00ffffff, 0x00ffffff],
   [0x00ffffff, 0x00000000, 0x00000000, 0x00000000], [0x00ffffff, 0x00000000, 0x00000000, 0x00ffffff],
   [0x00ffffff, 0x00000000, 0x00ffffff, 0x00000000], [0x00ffffff, 0x00000000, 0x00ffffff, 0x00ffffff],
   [0x00ffffff, 0x00ffffff, 0x00000000, 0x00000000], [0x00ffffff, 0x00ffffff, 0x00000000, 0x00ffffff],
   [0x00ffffff, 0x00ffffff, 0x00ffffff, 0x00000000], [0x00ffffff, 0x00ffffff, 0x00ffffff, 0x00ffffff]]

def le16 (w : UInt32) : List UInt8 := [w.toUInt8, (w >>> 8).toUInt8]

def le32 (w : UInt32) : List UInt8 := [w.toUInt8, (w >>> 8).toUInt8, (w >>> 16).toUInt8, (w >>> 24).toUInt8]

def swap16 (x : UInt32) : UInt32 := ((x &&& 0x00ff) <<< 8) ||| ((x &&& 0xff00) >>> 8)

def shortswap32 (x : UInt32) : UInt32 := ((x &&& 0xffff) <<< 16) ||| ((x &&& 0xffff0000) >>> 16)

def swap32 (x : UInt32) : UInt32 :=
  ((x &&& 0x000000ff) <<< 24) ||| ((x &&& 0x0000ff00) <<< 8) ||| ((x &&& 0x00ff0000) >>> 8) |||
    ((x &&& 0xff000000) >>> 24)

def Gdf.unit : Gdf → Nat
  | bit1 => 1
  | bit2 => 1
  | bit4 => 2
  | _ => 4

def fontRow (gdfType : Gdf) (c : Colours) (bits : UInt8) : List UInt8 :=
  let eorx := c.bgx ^^^ c.fgx
  let eorx1 := c.bgx1 ^^^ c.fgx1
  let eorx2 := c.bgx2 ^^^ c.fgx2
  let halves := [bits.toNat / 16, bits.toNat % 16]
  let pairs := [bits.toNat / 64, bits.toNat / 16 % 4, bits.toNat / 4 % 4, bits.toNat % 4]
  match gdfType with
  | .bit1 => [((bits.toUInt32 &&& eorx) ^^^ c.bgx).toUInt8]
  | .bit2 => halves.map fun n => ((fontBitmapTab2.getD n 0 &&& eorx) ^^^ c.bgx).toUInt8
  | .bit4 => halves.flatMap fun n => le16 (swap16 ((fontBitmapTab4.getD n 0 &&& eorx) ^^^ c.bgx))
  | .rgb332 => halves.flatMap fun n => le32 (swap32 ((fontBitmapTab8.getD n 0 &&& eorx) ^^^ c.bgx))
  | .rgb555 => pairs.flatMap fun n => le32 (shortswap32 ((fontBitmapTab15.getD n 0 &&& eorx) ^^^ c.bgx))
  | .rgb565 => pairs.flatMap fun n => le32 (shortswap32 ((fontBitmapTab16.getD n 0 &&& eorx) ^^^ c.bgx))
  | .rgb888 =>
    halves.flatMap fun n =>
      let row := fontBitmapTab24.getD n []
      le32 (swap32 ((row.getD 0 0 &&& eorx) ^^^ c.bgx)) ++ le32
        (swap32 ((row.getD 1 0 &&& eorx1) ^^^ c.bgx1)) ++
        le32 (swap32 ((row.getD 2 0 &&& eorx2) ^^^ c.bgx2))
  | .rgbx888 =>
    halves.flatMap fun n =>
      let row := fontBitmapTab32.getD n []
      [0, 1, 2, 3].flatMap fun k => le32 ((row.getD k 0 &&& eorx) ^^^ c.bgx)

/-- The bytes that a pass of the loop of `fb_set` stores. -/
def Gdf.pixel (gdfType : Gdf) (color : UInt32) : List UInt8 :=
  match gdfType with
  | bit1 => [if color &&& 0x01 ≠ 0 then 0xff else 0x00]
  | bit2 => [if color &&& 0x03 ≠ 0 then 0xff else 0x00]
  | bit4 => [if color &&& 0x0f ≠ 0 then 0xff else 0x00]
  | rgb332 => [color.toUInt8]
  | rgb555 => le16 (color &&& 0x7fff)
  | rgb565 => le16 (color &&& 0xffff)
  | rgb888 => [color.toUInt8, (color >>> 8).toUInt8, (color >>> 16).toUInt8]
  | rgbx888 => le32 (color &&& 0x00ffffff)

def Gdf.passes (gdfType : Gdf) (dstPix n : Nat) : Nat :=
  match gdfType with
  | bit1 => if dstPix % 8 ≠ 0 ∨ n % 8 ≠ 0 then 0 else n / 8
  | bit2 => if dstPix % 4 ≠ 0 ∨ n % 4 ≠ 0 then 0 else n / 4
  | bit4 => if dstPix % 2 ≠ 0 ∨ n % 2 ≠ 0 then 0 else n / 2
  | _ => n

namespace GraphicDevice

variable (d : GraphicDevice)

def lineSize : Nat := d.vsizeX * d.gdfType.bpp / 8

def rowStart (r : Nat) : Nat := d.gdfType.unit * (r * d.lineSize / d.gdfType.unit)

section

variable (videoFontdata : Nat → UInt8) (c : Colours) (font : UInt8) (x y : Nat)

def drawfontStores : Stores :=
  let offset := d.lineSize * y + x * d.gdfType.bpp / 8
  (List.range videoFontHeight).flatMap fun raw =>
    storesAt (d.vbase + offset + d.rowStart raw)
      (fontRow d.gdfType c (videoFontdata (font.toNat * videoFontHeight + raw)))

def fbDrawfont (frame : Memory) : Memory := paint frame (d.drawfontStores videoFontdata c font x y)

end

def fbMove (dstPix srcPix n : Nat) (frame : Memory) : Memory :=
  Lib.memcpy32 (d.vbase + wrap (dstPix * d.gdfType.bpp) / 8) (d.vbase + wrap (srcPix * d.gdfType.bpp) / 8)
    (wrap (n * d.gdfType.bpp) / 8 / 4) frame

def setStores (dstPix n : Nat) (color : UInt32) : Stores :=
  let dst := d.vbase + wrap (dstPix * d.gdfType.bpp) / 8
  (List.range (d.gdfType.passes dstPix n)).flatMap fun i =>
    (d.gdfType.pixel color).zipIdx.map fun x => (wrap (dst + i * (d.gdfType.pixel color).length + x.2), x.1)

def clipped (dstPix n : Nat) : Nat :=
  let total := wrap (d.vsizeX * d.vsizeY)
  if wrap (n + dstPix) ≥ total then wsub (wsub total 1) dstPix else n

def fbSet32 (dstPix n : Nat) (color : UInt32) (frame : Memory) : Memory :=
  if n = 0 then frame else paint frame (d.setStores dstPix (d.clipped dstPix n) color)

def setPixels (dstPix n : Nat) (color : UInt32) (frame : Memory) : Memory :=
  let dst := d.vbase + dstPix * d.gdfType.bpp / 8
  paint frame ((List.range (d.gdfType.passes dstPix n)).flatMap fun i =>
    storesAt (dst + i * (d.gdfType.pixel color).length) (d.gdfType.pixel color))

def place (row i : Nat) : Nat := d.vbase + (row * d.lineSize + i)

def Whole : Prop := 8 ∣ d.vsizeX * d.gdfType.bpp

/-- The frame lies in an unmapped segment of the address space: with 512 MB its bits can be counted in 32. -/
structure Framed : Prop where
  whole : d.Whole
  top : d.vbase + d.vsizeY * d.lineSize ≤ 2^32
  small : d.vsizeX * d.vsizeY * d.gdfType.bpp < 2^32

end GraphicDevice

@[simp] theorem fontRow_length (gdfType : Gdf) (c : Colours) (bits : UInt8) :
    (fontRow gdfType c bits).length = gdfType.bpp := by
  cases gdfType <;> rfl

theorem pixel_length_pos (gdfType : Gdf) (color : UInt32) : 0 < (gdfType.pixel color).length := by
  cases gdfType <;> exact Nat.succ_pos _

theorem passes_whole (gdfType : Gdf) (color : UInt32) (k n : Nat) :
    gdfType.passes (k * 8) (n * 8) * (gdfType.pixel color).length = n * gdfType.bpp := by
  cases gdfType <;> simp only [Gdf.passes, Gdf.pixel, Gdf.bpp, le16, le32, List.length_cons, List.length_nil]
  case bit1 | bit2 | bit4 =>
    rw [if_neg (by omega)]
    omega
  all_goals omega

namespace GraphicDevice

variable {d : GraphicDevice}

theorem Whole.line (whole : d.Whole) : 8 * d.lineSize = d.vsizeX * d.gdfType.bpp := Nat.mul_div_cancel' whole

theorem unit_bpp (gdfType : Gdf) : gdfType.unit ∣ gdfType.bpp := by
  cases gdfType <;> decide

theorem unit_pos (gdfType : Gdf) : 0 < gdfType.unit := by
  cases gdfType <;> decide

theorem rowStart_whole (units : d.gdfType.unit ∣ d.lineSize) (r : Nat) : d.rowStart r = r * d.lineSize :=
  Nat.mul_div_cancel' (units.trans (Nat.dvd_mul_left _ r))

theorem rowStart_le (r : Nat) : d.rowStart r ≤ r * d.lineSize := Nat.mul_div_le _ _

theorem rowStart_apart {width r r' : Nat} (units : d.gdfType.unit ∣ width)
    (fits : width ≤ d.lineSize) (above : r < r') :
    d.rowStart r + width ≤ d.rowStart r' := by
  obtain ⟨k, rfl⟩ := units
  have later : (r + 1) * d.lineSize ≤ r' * d.lineSize := Nat.mul_le_mul_right _ above
  rw [Nat.add_mul] at later
  rw [rowStart, rowStart, ← Nat.mul_add, ← Nat.add_mul_div_left _ _ (unit_pos d.gdfType)]
  exact Nat.mul_le_mul_left _ (Nat.div_le_div_right (by omega))

theorem mem_drawfont {videoFontdata : Nat → UInt8} {c : Colours} {font : UInt8} {x y : Nat}
    {s : Nat × UInt8} :
    s ∈ d.drawfontStores videoFontdata c font (x * videoFontWidth) (y * videoFontHeight) ↔
      ∃ r < videoFontHeight, ∃ i < d.gdfType.bpp, s.1 = d.place (y * videoFontHeight)
      (d.rowStart r + (x * d.gdfType.bpp + i)) ∧
        s.2 = (fontRow d.gdfType c (videoFontdata (font.toNat * videoFontHeight + r))).getD i 0 := by
  have row : ∀ r i, d.vbase + (d.lineSize * (y * videoFontHeight) + x * videoFontWidth *
    d.gdfType.bpp / 8) + d.rowStart r + i =
      d.place (y * videoFontHeight) (d.rowStart r + (x * d.gdfType.bpp + i)) := by
    intro r i
    rw [videoFontWidth, Nat.mul_right_comm, Nat.mul_div_cancel _ (by decide), place, Nat.mul_comm d.lineSize]
    omega
  rw [drawfontStores]
  simp only [List.mem_flatMap, List.mem_range, mem_storesAt, row]
  refine exists_congr fun r => and_congr_right fun _ => ⟨?_, ?_⟩
  · rintro ⟨i, found, same⟩
    obtain ⟨inside, value⟩ := List.getElem?_eq_some_iff.mp found
    exact ⟨i, by simpa using inside, same, by rw [List.getD_eq_getElem _ _ inside, value]⟩
  · rintro ⟨i, inside, same, value⟩
    have inside : i <
      (fontRow d.gdfType c (videoFontdata (font.toNat * videoFontHeight + r))).length := by simpa using inside
    exact ⟨i, by rw [value, List.getD_eq_getElem _ _ inside, List.getElem?_eq_getElem inside], same⟩

theorem setPixels_apply (dstPix n : Nat) (color : UInt32) (frame : Memory) (z : Nat) :
    d.setPixels dstPix n color frame z =
      if d.vbase + dstPix * d.gdfType.bpp / 8 ≤ z ∧
          z < d.vbase + dstPix * d.gdfType.bpp / 8 + d.gdfType.passes dstPix n *
            (d.gdfType.pixel color).length then
        (d.gdfType.pixel color).getD ((z - (d.vbase + dstPix * d.gdfType.bpp / 8)) %
          (d.gdfType.pixel color).length) 0
      else frame z := by
  have positive := pixel_length_pos d.gdfType color
  rw [setPixels]
  generalize d.vbase + dstPix * d.gdfType.bpp / 8 = dst
  generalize d.gdfType.pixel color = pixel at positive
  generalize d.gdfType.passes dstPix n = passes
  have stores : ∀ {s : Nat × UInt8}, (s ∈ (List.range passes).flatMap fun i =>
    storesAt (dst + i * pixel.length) pixel) ↔
      ∃ i < passes, ∃ j, pixel[j]? = some s.2 ∧ s.1 = dst + i * pixel.length + j := by
    intro s
    simp only [List.mem_flatMap, List.mem_range, mem_storesAt]
  have bound : ∀ {j : Nat} {v : UInt8}, pixel[j]? = some v → j < pixel.length ∧ v = pixel.getD j 0 := by
    intro j v found
    obtain ⟨less, rfl⟩ := List.getElem?_eq_some_iff.mp found
    exact ⟨less, (List.getD_eq_getElem _ _ less).symm⟩
  by_cases inside : dst ≤ z ∧ z < dst + passes * pixel.length
  · have digits : (z - dst) / pixel.length * pixel.length + (z - dst) % pixel.length = z - dst :=
      Nat.div_add_mod' _ _
    have low := Nat.mod_lt (z - dst) positive
    rw [if_pos inside]
    apply paint_value
    · rintro s member rfl
      obtain ⟨i, less, j, found, same⟩ := stores.mp member
      obtain ⟨short, value⟩ := bound found
      have place : i * pixel.length + j = (s.1 - dst) / pixel.length * pixel.length + (s.1 - dst) %
        pixel.length := by omega
      rw [value, (place_inj short low place).2]
    · have passed : (z - dst) / pixel.length < passes :=
        Nat.div_lt_of_lt_mul (show z - dst < pixel.length * passes by rw [Nat.mul_comm]; omega)
      have held : pixel[(z - dst) % pixel.length]? = some (pixel.getD ((z - dst) % pixel.length) 0) := by
        rw [List.getD_eq_getElem _ _ low, List.getElem?_eq_getElem low]
      have place : z = dst + (z - dst) / pixel.length * pixel.length + (z - dst) % pixel.length := by omega
      exact .inr ⟨(z, _), stores.mpr ⟨_, passed, _, held, place⟩, rfl⟩
  · rw [if_neg inside]
    apply paint_other
    rintro s member rfl
    obtain ⟨i, less, j, found, same⟩ := stores.mp member
    have short := (bound found).1
    have row : (i + 1) * pixel.length ≤ passes * pixel.length := Nat.mul_le_mul_right _ less
    rw [Nat.add_mul] at row
    omega

theorem passes_le (gdfType : Gdf) (color : UInt32) (dstPix n : Nat) :
    gdfType.passes dstPix n * (gdfType.pixel color).length ≤ n * gdfType.bpp / 8 := by
  cases gdfType <;> simp only [Gdf.passes, Gdf.pixel, Gdf.bpp, le16, le32, List.length_cons, List.length_nil]
  case bit1 | bit2 | bit4 =>
    split <;> omega
  all_goals omega

theorem Framed.size (framed : d.Framed) :
    d.vsizeY * d.lineSize = d.vsizeX * d.vsizeY * d.gdfType.bpp / 8 := by
  have line := framed.whole.line
  rw [Nat.mul_right_comm, ← line, Nat.mul_right_comm, Nat.mul_assoc,
    Nat.mul_div_cancel_left _ (by decide), Nat.mul_comm]

theorem Framed.setStores (framed : d.Framed) {dstPix n : Nat}
    (fits : dstPix + n ≤ d.vsizeX * d.vsizeY) (color : UInt32) (frame : Memory) :
    paint frame (d.setStores dstPix n color) = d.setPixels dstPix n color frame := by
  have bits := framed.small
  have size := framed.size
  have top := framed.top
  have all : (dstPix + n) * d.gdfType.bpp ≤ d.vsizeX * d.vsizeY * d.gdfType.bpp := Nat.mul_le_mul_right _ fits
  have stored := passes_le d.gdfType color dstPix n
  rw [Nat.add_mul] at all
  rw [GraphicDevice.setStores, setPixels, wrap_of_lt (by omega)]
  congr 1
  apply List.flatMap_congr
  intro i inside
  apply List.map_congr_left
  rintro ⟨v, j⟩ member
  have short := (List.getElem?_eq_some_iff.mp (List.mem_zipIdx_iff_getElem?.mp member)).1
  have next : (i + 1) * (d.gdfType.pixel color).length ≤ d.gdfType.passes dstPix n *
      (d.gdfType.pixel color).length :=
    Nat.mul_le_mul_right _ (List.mem_range.mp inside)
  rw [Nat.add_mul] at next
  dsimp only at short ⊢
  rw [wrap_of_lt (by omega)]

theorem Framed.fbMove_apply (framed : d.Framed) {rows : Nat}
    (fits : (rows + 1) * videoFontHeight ≤ d.vsizeY) (frame : Memory) (z : Nat) :
    d.fbMove 0 (d.vsizeX * videoFontHeight) (rows * d.vsizeX * videoFontHeight) frame z =
      if d.vbase ≤ z ∧ z < d.place (rows * videoFontHeight) 0 then
        frame (z + videoFontHeight * d.lineSize) else frame z := by
  have line := framed.whole.line
  have bits := framed.small
  have all : d.vsizeX * ((rows + 1) * videoFontHeight) * d.gdfType.bpp ≤
      d.vsizeX * d.vsizeY * d.gdfType.bpp :=
    Nat.mul_le_mul_right _ (Nat.mul_le_mul_left _ fits)
  have split : d.vsizeX * ((rows + 1) * videoFontHeight) * d.gdfType.bpp =
      rows * d.vsizeX * videoFontHeight * d.gdfType.bpp + d.vsizeX * videoFontHeight *
        d.gdfType.bpp := by ring
  have source : d.vsizeX * videoFontHeight * d.gdfType.bpp / 8 = videoFontHeight * d.lineSize := by
    rw [Nat.mul_right_comm, ← line, videoFontHeight]
    omega
  have words : 4 * (rows * d.vsizeX * videoFontHeight * d.gdfType.bpp / 8 / 4) =
      rows * videoFontHeight * d.lineSize := by
    rw [Nat.mul_assoc rows, Nat.mul_assoc rows, Nat.mul_right_comm d.vsizeX, ← line,
      videoFontHeight, Nat.mul_assoc rows,
      show rows * (8 * d.lineSize * 16) = rows * d.lineSize * 4 * 4 * 8 by
        ring, Nat.mul_div_cancel _ (by decide),
      Nat.mul_div_cancel _ (by decide)]
    ring
  rw [fbMove, Nat.zero_mul, wrap_of_lt (by decide), wrap_of_lt (by omega), wrap_of_lt (by omega),
    Nat.zero_div, Nat.add_zero, source, Lib.memcpy32_apply (Nat.le_add_right _ _), words, place, Nat.add_zero]
  by_cases inside : d.vbase ≤ z ∧ z < d.vbase + rows * videoFontHeight * d.lineSize
  · rw [if_pos inside, if_pos inside]
    congr 1
    omega
  · rw [if_neg inside, if_neg inside]

end GraphicDevice

end Embryo.Drivers.Fb
