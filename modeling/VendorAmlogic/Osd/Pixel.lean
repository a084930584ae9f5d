import VendorAmlogic.Osd.Draw
import VendorAmlogic.Osd.Palette

/-!
# Pixels and colors

The pixel formats that `osd_init` of `am_osd/am_osd.c` sets up on a little-endian machine, the
macros of `am_osd_internal.h` that make colors of pixels and pixels of colors, and what the
blits of `am_osd/sw_op.c` do with one pixel. The names of the formats are left out.
-/

namespace VendorAmlogic.Osd

open VendorAmlogic.Lib

/-! ## Formats -/

/-- `AM_OSD_PixelFormatType_t`. -/
inductive PixelFormatType where
  | palette256
  | argb4444 | bgra4444 | argb1555 | bgra5551 | rgb565 | bgr565 | rgb888 | bgr888
  | argb8888 | bgra8888 | rgba8888 | abgr8888
  | yuv420 | yuv422 | yuv444
  deriving DecidableEq, Repr

/-- Where a component is in a pixel, and how far it is shifted to be one of 255 at most. -/
structure Component where
  mask : BitVec 32
  offset : Nat
  shift : Nat

/-- What the blits use of an `AM_OSD_PixelFormat_t`. -/
structure PixelFormat where
  bytesPerPixel : Nat
  a : Component
  r : Component
  g : Component
  b : Component

/-- `FMT_BIT_MASK`. -/
def fmtBitMask (bytesPerPixel : Nat) (am : BitVec 32) (ao as : Nat) (rm : BitVec 32) (ro rs : Nat)
    (gm : BitVec 32) (go gs : Nat) (bm : BitVec 32) (bo bs : Nat) : PixelFormat where
  bytesPerPixel := bytesPerPixel
  a := ⟨am, ao, as⟩
  r := ⟨rm, ro, rs⟩
  g := ⟨gm, go, gs⟩
  b := ⟨bm, bo, bs⟩

/-- `osd_formats`: the masks of the palette and of the YUV formats are never set. -/
def osdFormats : PixelFormatType → PixelFormat
  | .palette256 | .yuv420 | .yuv422 | .yuv444 => fmtBitMask 1 0 0 0 0 0 0 0 0 0 0 0 0
  | .bgra4444 => fmtBitMask 2 0xF000 12 4 0x0F00 8 4 0x00F0 4 4 0x000F 0 4
  | .argb4444 => fmtBitMask 2 0x000F 0 4 0x00F0 4 4 0x0F00 8 4 0xF000 12 4
  | .bgra5551 => fmtBitMask 2 0x8000 15 7 0x7C00 10 3 0x03E0 5 3 0x001F 0 3
  | .argb1555 => fmtBitMask 2 0x0001 0 7 0x003E 1 3 0x07C0 6 3 0xF800 11 3
  | .bgr565 => fmtBitMask 2 0x0000 0 0 0xF800 11 3 0x07E0 5 2 0x001F 0 3
  | .rgb565 => fmtBitMask 2 0x0000 0 0 0x001F 0 3 0x07E0 5 2 0xF800 11 3
  | .bgr888 => fmtBitMask 3 0x000000 0 0 0xFF0000 16 0 0x00FF00 8 0 0x0000FF 0 0
  | .rgb888 => fmtBitMask 3 0x000000 0 0 0x0000FF 0 0 0x00FF00 8 0 0xFF0000 16 0
  | .bgra8888 => fmtBitMask 4 0xFF000000 24 0 0x00FF0000 16 0 0x0000FF00 8 0 0x000000FF 0 0
  | .argb8888 => fmtBitMask 4 0x000000FF 0 0 0x0000FF00 8 0 0x00FF0000 16 0 0xFF000000 24 0
  | .rgba8888 => fmtBitMask 4 0xFF000000 24 0 0x000000FF 0 0 0x0000FF00 8 0 0x00FF0000 16 0
  | .abgr8888 => fmtBitMask 4 0x000000FF 0 0 0xFF000000 24 0 0x00FF0000 16 0 0x0000FF00 8 0

/-- `AM_OSD_PIXEL_FORMAT_TYPE_IS_PALETTE`. -/
def PixelFormatType.isPalette (t : PixelFormatType) : Bool := t = .palette256

/-- `AM_OSD_PIXEL_FORMAT_TYPE_IS_YUV`. -/
def PixelFormatType.isYuv (t : PixelFormatType) : Bool := t = .yuv420 ∨ t = .yuv422 ∨ t = .yuv444

/-- The other formats. -/
def PixelFormatType.isRgb (t : PixelFormatType) : Bool := !t.isPalette && !t.isYuv

/-! ## Model -/

/-- A pixel as it is read: its bytes, the low one first. -/
def pixValue : List Byte → BitVec 32
  | [] => 0
  | b :: d => b.setWidth 32 ||| pixValue d <<< 8

/-- `AM_RGB_PIXEL_TO_COLOR_COMPONENT`. -/
def Component.toColor (c : Component) (pix : BitVec 32) : Byte :=
  (((pix &&& c.mask) >>> c.offset) <<< c.shift).setWidth 8

/-- `AM_COLOR_COMPONENT_TO_RGB_PIXEL`. -/
def Component.toPixel (c : Component) (v : Byte) : BitVec 32 :=
  ((v.setWidth 32 >>> c.shift) <<< c.offset) &&& c.mask

def amRgbPixelToColor (f : PixelFormat) (pix : BitVec 32) : Color where
  r := f.r.toColor pix
  g := f.g.toColor pix
  b := f.b.toColor pix
  a := if f.a.mask ≠ 0 then f.a.toColor pix else 0xFF

def amColorToRgbPixel (f : PixelFormat) (col : Color) : BitVec 32 :=
  f.r.toPixel col.r ||| f.g.toPixel col.g ||| f.b.toPixel col.b ||| f.a.toPixel col.a

/-- What the software blits use of an `AM_OSD_BlitPara_t`. -/
structure BlitPara where
  enableAlpha : Bool
  enableKey : Bool
  key : BitVec 32

/-- `(col.r*col.a+dc.r*(255-col.a))>>8`. -/
def blendComponent (a s d : Byte) : Byte :=
  BitVec.ofNat 8 ((s.toNat * a.toNat + d.toNat * (255 - a.toNat)) >>> 8)

def Color.blend (col dc : Color) : Color where
  r := blendComponent col.a col.r dc.r
  g := blendComponent col.a col.g dc.g
  b := blendComponent col.a col.b dc.b
  a := if col.a.toNat > dc.a.toNat then col.a else dc.a

/-- The color of a source pixel. -/
def sourceColor (t : PixelFormatType) (colors : Palette) (pix : BitVec 32) : Color :=
  if t.isPalette then
    if pix.toNat < colors.length then colors.getD pix.toNat default else ⟨0, 0, 0, 0xFF⟩
  else amRgbPixelToColor (osdFormats t) pix

/-- What is stored for a source pixel, when the pixel of the destination is read as `dp`;
`none`: `goto next_pixel`. -/
def blitPixel (t u : PixelFormatType) (colors : Palette) (para : BlitPara) (pix dp : BitVec 32) :
    Option (List Byte) :=
  if para.enableKey ∧ pix = para.key then none
  else
    let f := osdFormats u
    let col := sourceColor t colors pix
    if u.isPalette then some (pixBytes f.bytesPerPixel pix)
    else if para.enableAlpha then
      if col.a = 0 then none
      else
        let col := if col.a ≠ 0xFF then col.blend (amRgbPixelToColor f dp) else col
        some (pixBytes f.bytesPerPixel (amColorToRgbPixel f col))
    else some (pixBytes f.bytesPerPixel (amColorToRgbPixel f col))

/-! ## Bytes of pixels -/

theorem bytesPerPixel_le (t : PixelFormatType) :
    0 < (osdFormats t).bytesPerPixel ∧ (osdFormats t).bytesPerPixel ≤ 4 := by
  cases t <;> decide

theorem getD_pixBytes {n k : Nat} (hk : k < n) (pix : BitVec 32) :
    (pixBytes n pix).getD k 0 = (pix >>> (8 * k)).setWidth 8 := by
  simp [pixBytes, hk]

theorem getLsbD_pixValue (d : List Byte) {i : Nat} (hi : i < 32) :
    (pixValue d).getLsbD i = (d.getD (i / 8) 0).getLsbD (i % 8) := by
  induction d generalizing i with
  | nil => simp [pixValue]
  | cons b d ih =>
    rw [pixValue, BitVec.getLsbD_or, BitVec.getLsbD_setWidth, BitVec.getLsbD_shiftLeft]
    by_cases h8 : i < 8
    · rw [Nat.div_eq_of_lt h8, Nat.mod_eq_of_lt h8]
      simp [h8, hi]
    · rw [ih (by omega), BitVec.getLsbD_of_ge b i (by omega),
        show i / 8 = (i - 8) / 8 + 1 by omega, show (i - 8) % 8 = i % 8 by omega]
      simp [h8, hi]

/-- A pixel has no bits behind its bytes. -/
theorem getLsbD_pixValue_of_le {d : List Byte} {i : Nat} (h : 8 * d.length ≤ i) :
    (pixValue d).getLsbD i = false := by
  by_cases hi : i < 32
  · rw [getLsbD_pixValue d hi, List.getD_eq_getElem?_getD, List.getElem?_eq_none (by omega)]
    exact BitVec.getLsbD_zero
  · exact BitVec.getLsbD_of_ge _ _ (by omega)

/-- Of at most four bytes none is lost. -/
theorem pixBytes_pixValue {d : List Byte} (h : d.length ≤ 4) :
    pixBytes d.length (pixValue d) = d := by
  refine List.ext_getElem (length_pixBytes _ _) fun k hk hk' => ?_
  have hbyte := getD_pixBytes hk' (pixValue d)
  rw [List.getD_eq_getElem?_getD, List.getElem?_eq_getElem hk, Option.getD_some] at hbyte
  rw [hbyte]
  refine BitVec.eq_of_getLsbD_eq fun i hi => ?_
  rw [BitVec.getLsbD_setWidth, BitVec.getLsbD_ushiftRight, getLsbD_pixValue d (by omega),
    show (8 * k + i) / 8 = k by omega, show (8 * k + i) % 8 = i by omega, decide_eq_true hi,
    Bool.true_and, List.getD_eq_getElem?_getD, List.getElem?_eq_getElem hk', Option.getD_some]

/-- Pixels are the same when their bytes are. -/
theorem pixBytes_inj {n : Nat} {p q : BitVec 32} (hp : ∀ i, 8 * n ≤ i → p.getLsbD i = false)
    (hq : ∀ i, 8 * n ≤ i → q.getLsbD i = false) (h : pixBytes n p = pixBytes n q) : p = q := by
  refine BitVec.eq_of_getLsbD_eq fun i hi => ?_
  by_cases hin : i < 8 * n
  · have hbit : ∀ r : BitVec 32, r.getLsbD i = ((pixBytes n r).getD (i / 8) 0).getLsbD (i % 8) := by
      intro r
      rw [getD_pixBytes (by omega), BitVec.getLsbD_setWidth, BitVec.getLsbD_ushiftRight,
        Nat.div_add_mod, decide_eq_true (by omega), Bool.true_and]
    rw [hbit p, hbit q, h]
  · rw [hp i (by omega), hq i (by omega)]

/-! ## Components -/

namespace Component

variable {c : Component}

/-- The bits of the mask are just those that the offset and the shift say. -/
def Exact (c : Component) : Prop :=
  ∀ i < 32, c.mask.getLsbD i = decide (c.offset ≤ i ∧ i < c.offset + (8 - c.shift))

instance (c : Component) : Decidable c.Exact := inferInstanceAs (Decidable (∀ i < 32, _))

theorem getLsbD_toColor (c : Component) (pix : BitVec 32) (j : Nat) :
    (c.toColor pix).getLsbD j =
      (decide (j < 8 ∧ c.shift ≤ j) && (pix &&& c.mask).getLsbD (c.offset + (j - c.shift))) := by
  unfold toColor
  rw [BitVec.getLsbD_setWidth, BitVec.getLsbD_shiftLeft, BitVec.getLsbD_ushiftRight]
  by_cases hj : j < 8
  · by_cases hs : c.shift ≤ j
    · simp [hj, hs, show j < 32 by omega, show ¬ j < c.shift by omega]
    · simp [hj, hs, show j < c.shift by omega]
  · simp [hj]

theorem getLsbD_toPixel (c : Component) (v : Byte) (i : Nat) :
    (c.toPixel v).getLsbD i =
      (decide (c.offset ≤ i) && v.getLsbD (c.shift + (i - c.offset)) && c.mask.getLsbD i) := by
  unfold toPixel
  rw [BitVec.getLsbD_and, BitVec.getLsbD_shiftLeft, BitVec.getLsbD_ushiftRight,
    BitVec.getLsbD_setWidth]
  by_cases hi : i < 32
  · by_cases ho : c.offset ≤ i
    · by_cases hw : c.shift + (i - c.offset) < 32
      · simp [hi, ho, hw, show ¬ i < c.offset by omega]
      · simp [hi, hw, BitVec.getLsbD_of_ge v _ (show 8 ≤ c.shift + (i - c.offset) by omega)]
    · simp [ho, show i < c.offset by omega]
  · simp [BitVec.getLsbD_of_ge c.mask i (by omega)]

/-- Nothing of a component is lost in its color. -/
theorem toPixel_toColor (h : c.Exact) (pix : BitVec 32) :
    c.toPixel (c.toColor pix) = pix &&& c.mask := by
  refine BitVec.eq_of_getLsbD_eq fun i hi => ?_
  rw [getLsbD_toPixel, getLsbD_toColor, BitVec.getLsbD_and, BitVec.getLsbD_and, h i hi]
  by_cases hin : c.offset ≤ i ∧ i < c.offset + (8 - c.shift)
  · have hback : c.offset + (c.shift + (i - c.offset) - c.shift) = i := by omega
    rw [hback, h i hi]
    simp [hin, show c.shift + (i - c.offset) < 8 by omega]
  · simp [hin]

/-- The values that give the same component are those with the same high bits. -/
theorem toPixel_eq_iff (h : c.Exact) (hin : c.offset + (8 - c.shift) ≤ 32) {u v : Byte} :
    c.toPixel u = c.toPixel v ↔ u.toNat / 2 ^ c.shift = v.toNat / 2 ^ c.shift := by
  have hdiv : ∀ w : Byte, w.toNat / 2 ^ c.shift = (w >>> c.shift).toNat := fun w => by
    rw [BitVec.toNat_ushiftRight, Nat.shiftRight_eq_div_pow]
  rw [hdiv, hdiv]
  constructor
  · intro heq
    refine congrArg BitVec.toNat (BitVec.eq_of_getLsbD_eq fun j hj => ?_)
    rw [BitVec.getLsbD_ushiftRight, BitVec.getLsbD_ushiftRight]
    by_cases hjs : c.shift + j < 8
    · have hbit := congrArg (BitVec.getLsbD · (c.offset + j)) heq
      have hmask := h (c.offset + j) (by omega)
      rw [decide_eq_true (by omega)] at hmask
      simp only [getLsbD_toPixel, hmask, Nat.add_sub_cancel_left] at hbit
      simpa using hbit
    · rw [BitVec.getLsbD_of_ge u _ (by omega), BitVec.getLsbD_of_ge v _ (by omega)]
  · intro heq
    refine BitVec.eq_of_getLsbD_eq fun i _ => ?_
    have hbit := congrArg (BitVec.getLsbD · (i - c.offset)) (BitVec.eq_of_toNat_eq heq)
    simp only [BitVec.getLsbD_ushiftRight] at hbit
    rw [getLsbD_toPixel, getLsbD_toPixel, hbit]

@[simp] theorem toPixel_and_mask (c : Component) (v : Byte) :
    c.toPixel v &&& c.mask = c.toPixel v := by
  rw [toPixel, BitVec.and_assoc, BitVec.and_self]

theorem toPixel_and_of_disjoint {m : BitVec 32} (h : c.mask &&& m = 0) (v : Byte) :
    c.toPixel v &&& m = 0 := by
  rw [toPixel, BitVec.and_assoc, h]
  exact BitVec.and_zero

/-- A component of a pixel is at most that of a pixel that has all its bits. -/
theorem toColor_le {pix full : BitVec 32} (h : full &&& c.mask = c.mask) :
    (c.toColor pix).toNat ≤ (c.toColor full).toNat := by
  have hand : c.toColor pix = c.toColor full &&& c.toColor pix := by
    refine BitVec.eq_of_getLsbD_eq fun i _ => ?_
    rw [BitVec.getLsbD_and, getLsbD_toColor, getLsbD_toColor, h, BitVec.getLsbD_and]
    grind
  rw [hand, BitVec.toNat_and]
  exact Nat.and_le_left

/-- The bits below the shift are not set. -/
theorem toNat_toColor (c : Component) (pix : BitVec 32) (hs : c.shift ≤ 8) :
    ∃ j, j < 2 ^ (8 - c.shift) ∧ (c.toColor pix).toNat = 2 ^ c.shift * j := by
  refine ⟨((pix &&& c.mask) >>> c.offset).toNat % 2 ^ (8 - c.shift), Nat.mod_lt _ (by positivity),
    ?_⟩
  unfold toColor
  rw [BitVec.toNat_setWidth, BitVec.toNat_shiftLeft, Nat.shiftLeft_eq, Nat.mod_mod_of_dvd _
    (by decide), Nat.mul_comm, ← Nat.mul_mod_mul_left, ← Nat.pow_add, Nat.add_sub_cancel' hs]

/-- The mask is that of the offset and the shift, in the word. -/
structure Fits (c : Component) : Prop where
  exact_mask : c.Exact
  shift_le : c.shift ≤ 8
  within : c.offset + (8 - c.shift) ≤ 32

end Component

/-! ## Pixels of the RGB formats -/

namespace PixelFormat

/-- The components of a format share no bits and have all those of a pixel. -/
structure Packed (f : PixelFormat) : Prop where
  r : f.r.Fits
  g : f.g.Fits
  b : f.b.Fits
  a : f.a.mask = 0 ∨ f.a.Fits
  rg : f.r.mask &&& f.g.mask = 0
  rb : f.r.mask &&& f.b.mask = 0
  ra : f.r.mask &&& f.a.mask = 0
  gb : f.g.mask &&& f.b.mask = 0
  ga : f.g.mask &&& f.a.mask = 0
  ba : f.b.mask &&& f.a.mask = 0
  cover : ∀ i < 32, (f.r.mask ||| f.g.mask ||| f.b.mask ||| f.a.mask).getLsbD i =
    decide (i < 8 * f.bytesPerPixel)

variable {f : PixelFormat}

/-- Packing an unpacked pixel gives it back. -/
theorem Packed.amColorToRgbPixel_color (h : f.Packed) {pix : BitVec 32}
    (hpix : ∀ i, 8 * f.bytesPerPixel ≤ i → pix.getLsbD i = false) :
    amColorToRgbPixel f (amRgbPixelToColor f pix) = pix := by
  have ha : f.a.toPixel (amRgbPixelToColor f pix).a = pix &&& f.a.mask := by
    simp only [amRgbPixelToColor]
    by_cases h0 : f.a.mask = 0
    · rw [if_neg (not_not_intro h0), Component.toPixel, h0]
      exact BitVec.and_zero.trans BitVec.and_zero.symm
    · rw [if_pos h0, Component.toPixel_toColor (h.a.resolve_left h0).exact_mask]
  unfold amColorToRgbPixel
  rw [ha]
  simp only [amRgbPixelToColor]
  rw [Component.toPixel_toColor h.r.exact_mask, Component.toPixel_toColor h.g.exact_mask,
    Component.toPixel_toColor h.b.exact_mask]
  refine BitVec.eq_of_getLsbD_eq fun i hi => ?_
  have hcover := h.cover i hi
  simp only [BitVec.getLsbD_or] at hcover
  simp only [BitVec.getLsbD_or, BitVec.getLsbD_and, ← Bool.and_or_distrib_left, hcover]
  by_cases hin : i < 8 * f.bytesPerPixel
  · rw [decide_eq_true hin, Bool.and_true]
  · rw [hpix i (by omega), Bool.false_and]

/-- The pixels of two colors with the same alpha are the same when the components are. -/
theorem Packed.amColorToRgbPixel_eq_iff (h : f.Packed) {u v : Color} (ha : u.a = v.a) :
    amColorToRgbPixel f u = amColorToRgbPixel f v ↔
      f.r.toPixel u.r = f.r.toPixel v.r ∧ f.g.toPixel u.g = f.g.toPixel v.g ∧
        f.b.toPixel u.b = f.b.toPixel v.b := by
  have hgr : f.g.mask &&& f.r.mask = 0 := (BitVec.and_comm _ _).trans h.rg
  have hbr : f.b.mask &&& f.r.mask = 0 := (BitVec.and_comm _ _).trans h.rb
  have hbg : f.b.mask &&& f.g.mask = 0 := (BitVec.and_comm _ _).trans h.gb
  have har : f.a.mask &&& f.r.mask = 0 := (BitVec.and_comm _ _).trans h.ra
  have hag : f.a.mask &&& f.g.mask = 0 := (BitVec.and_comm _ _).trans h.ga
  have hab : f.a.mask &&& f.b.mask = 0 := (BitVec.and_comm _ _).trans h.ba
  -- under each mask only its own component is left
  have hred : ∀ w, amColorToRgbPixel f w &&& f.r.mask = f.r.toPixel w.r := fun w => by
    simp [amColorToRgbPixel, BitVec.and_or_distrib_right, Component.toPixel_and_of_disjoint hgr,
      Component.toPixel_and_of_disjoint hbr, Component.toPixel_and_of_disjoint har]
  have hgreen : ∀ w, amColorToRgbPixel f w &&& f.g.mask = f.g.toPixel w.g := fun w => by
    simp [amColorToRgbPixel, BitVec.and_or_distrib_right, Component.toPixel_and_of_disjoint h.rg,
      Component.toPixel_and_of_disjoint hbg, Component.toPixel_and_of_disjoint hag]
  have hblue : ∀ w, amColorToRgbPixel f w &&& f.b.mask = f.b.toPixel w.b := fun w => by
    simp [amColorToRgbPixel, BitVec.and_or_distrib_right, Component.toPixel_and_of_disjoint h.rb,
      Component.toPixel_and_of_disjoint h.gb, Component.toPixel_and_of_disjoint hab]
  constructor
  · intro heq
    rw [← hred, ← hred, ← hgreen, ← hgreen, ← hblue, ← hblue, heq]
    exact ⟨rfl, rfl, rfl⟩
  · rintro ⟨hr, hg, hb⟩
    unfold amColorToRgbPixel
    rw [hr, hg, hb, ha]

/-- A pixel has no bits that the format has not. -/
theorem Packed.getLsbD_of_le (h : f.Packed) (col : Color) {i : Nat}
    (hi : 8 * f.bytesPerPixel ≤ i) : (amColorToRgbPixel f col).getLsbD i = false := by
  by_cases hw : i < 32
  · have hcover := h.cover i hw
    rw [decide_eq_false (by omega)] at hcover
    simp only [BitVec.getLsbD_or, Bool.or_eq_false_iff] at hcover
    obtain ⟨⟨⟨hr, hg⟩, hb⟩, ha⟩ := hcover
    simp only [amColorToRgbPixel, BitVec.getLsbD_or, Component.getLsbD_toPixel, hr, hg, hb, ha,
      Bool.and_false, Bool.or_false]
  · exact BitVec.getLsbD_of_ge _ _ (by omega)

end PixelFormat

theorem packed_of_isRgb {t : PixelFormatType} (h : t.isRgb = true) : (osdFormats t).Packed := by
  have hfits : ∀ {c : Component}, c.Exact ∧ c.shift ≤ 8 ∧ c.offset + (8 - c.shift) ≤ 32 → c.Fits :=
    fun h => ⟨h.1, h.2.1, h.2.2⟩
  cases t with
  | palette256 | yuv420 | yuv422 | yuv444 => exact absurd h (by decide)
  | rgb565 | bgr565 | rgb888 | bgr888 =>
    exact ⟨hfits (by decide), hfits (by decide), hfits (by decide), .inl (by decide), by decide,
      by decide, by decide, by decide, by decide, by decide, by decide⟩
  | _ =>
    exact ⟨hfits (by decide), hfits (by decide), hfits (by decide), .inr (hfits (by decide)),
      by decide, by decide, by decide, by decide, by decide, by decide, by decide⟩

/-! ## One pixel of a blit -/

section Blend

variable {t : PixelFormatType} {colors : Palette} {para : BlitPara} {d : List Byte}

/-- Blending with all the alpha bits of the format keeps the high bits of a component. -/
def PixelFormatType.Keeps (t : PixelFormatType) (s d : Byte) : Prop :=
  match t with
  | .argb4444 | .bgra4444 => s.toNat = 0 ∨ s.toNat < d.toNat
  | .argb1555 | .bgra5551 =>
    (s.toNat = 0 ∧ d.toNat ≤ 16) ∨ d.toNat = s.toNat + 8 ∨ d.toNat = s.toNat + 16
  | _ => True

instance (t : PixelFormatType) (s d : Byte) : Decidable (t.Keeps s d) :=
  match t with
  | .argb4444 | .bgra4444 => inferInstanceAs (Decidable (_ ∨ _))
  | .argb1555 | .bgra5551 => inferInstanceAs (Decidable ((_ ∧ _) ∨ _ ∨ _))
  | .palette256 | .rgb565 | .bgr565 | .rgb888 | .bgr888 | .argb8888 | .bgra8888 | .rgba8888
  | .abgr8888 | .yuv420 | .yuv422 | .yuv444 => inferInstanceAs (Decidable True)

def PixelFormatType.KeepsColor (t : PixelFormatType) (col dc : Color) : Prop :=
  t.Keeps col.r dc.r ∧ t.Keeps col.g dc.g ∧ t.Keeps col.b dc.b

instance (t : PixelFormatType) (col dc : Color) : Decidable (t.KeepsColor col dc) :=
  inferInstanceAs (Decidable (_ ∧ _))

/-- All the alpha bits of the pixel are set. -/
def PixelFormatType.Opaque (t : PixelFormatType) (pix : BitVec 32) : Prop :=
  pix &&& (osdFormats t).a.mask = (osdFormats t).a.mask

instance (t : PixelFormatType) (pix : BitVec 32) : Decidable (t.Opaque pix) :=
  inferInstanceAs (Decidable (_ = _))

theorem toNat_blendComponent (a s d : Byte) :
    (blendComponent a s d).toNat = (s.toNat * a.toNat + d.toNat * (255 - a.toNat)) / 256 := by
  have ha := a.isLt
  have hs : s.toNat * a.toNat ≤ 255 * a.toNat := Nat.mul_le_mul_right _ (by omega)
  have hd : d.toNat * (255 - a.toNat) ≤ 255 * (255 - a.toNat) := Nat.mul_le_mul_right _ (by omega)
  rw [blendComponent, BitVec.toNat_ofNat, Nat.shiftRight_eq_div_pow]
  omega

/-- What blending does to a component of four bits. -/
theorem blendComponent_four {s d : Byte} {j k : Nat} (hj : j < 16) (hs : s.toNat = 16 * j)
    (hd : d.toNat = 16 * k) :
    (blendComponent 0xF0 s d).toNat / 16 = s.toNat / 16 ↔ s.toNat = 0 ∨ s.toNat < d.toNat := by
  rw [toNat_blendComponent, hs, hd, show (0xF0 : Byte).toNat = 240 from rfl]
  omega

/-- What blending does to a component of five bits. -/
theorem blendComponent_five {s d : Byte} {j k : Nat} (hj : j < 32) (hk : k < 32)
    (hs : s.toNat = 8 * j) (hd : d.toNat = 8 * k) :
    (blendComponent 0x80 s d).toNat / 8 = s.toNat / 8 ↔
      (s.toNat = 0 ∧ d.toNat ≤ 16) ∨ d.toNat = s.toNat + 8 ∨ d.toNat = s.toNat + 16 := by
  rw [toNat_blendComponent, hs, hd, show (0x80 : Byte).toNat = 128 from rfl]
  omega

namespace Component

variable {c : Component} {p q : BitVec 32}

theorem toPixel_blend_four (h : c.Fits) (hs : c.shift = 4) :
    c.toPixel (blendComponent 0xF0 (c.toColor p) (c.toColor q)) = c.toPixel (c.toColor p) ↔
      (c.toColor p).toNat = 0 ∨ (c.toColor p).toNat < (c.toColor q).toNat := by
  obtain ⟨j, hj, hcol⟩ := c.toNat_toColor p h.shift_le
  obtain ⟨k, -, hdst⟩ := c.toNat_toColor q h.shift_le
  rw [hs] at hj hcol hdst
  rw [toPixel_eq_iff h.exact_mask h.within, hs]
  exact blendComponent_four hj hcol hdst

theorem toPixel_blend_five (h : c.Fits) (hs : c.shift = 3) :
    c.toPixel (blendComponent 0x80 (c.toColor p) (c.toColor q)) = c.toPixel (c.toColor p) ↔
      ((c.toColor p).toNat = 0 ∧ (c.toColor q).toNat ≤ 16) ∨
        (c.toColor q).toNat = (c.toColor p).toNat + 8 ∨
        (c.toColor q).toNat = (c.toColor p).toNat + 16 := by
  obtain ⟨j, hj, hcol⟩ := c.toNat_toColor p h.shift_le
  obtain ⟨k, hk, hdst⟩ := c.toNat_toColor q h.shift_le
  rw [hs] at hj hk hcol hdst
  rw [toPixel_eq_iff h.exact_mask h.within, hs]
  exact blendComponent_five hj hk hcol hdst

theorem toColor_full (h : p &&& c.mask = c.mask) : c.toColor p = c.toColor c.mask := by
  rw [toColor, toColor, h, BitVec.and_self]

end Component

/-- The destination is at most as opaque as an opaque pixel. -/
theorem blend_a {p : BitVec 32} (h : t.Opaque p) (q : BitVec 32) :
    ((amRgbPixelToColor (osdFormats t) p).blend (amRgbPixelToColor (osdFormats t) q)).a =
      (amRgbPixelToColor (osdFormats t) p).a := by
  have hle : (amRgbPixelToColor (osdFormats t) q).a.toNat ≤
      (amRgbPixelToColor (osdFormats t) p).a.toNat := by
    simp only [amRgbPixelToColor]
    split
    · exact Component.toColor_le h
    · exact Nat.le_refl _
  simp only [Color.blend]
  split
  · rfl
  · exact BitVec.eq_of_toNat_eq (by omega)

theorem opaque_a {p : BitVec 32} (h : t.Opaque p) (h0 : (osdFormats t).a.mask ≠ 0) :
    (amRgbPixelToColor (osdFormats t) p).a =
      (osdFormats t).a.toColor (osdFormats t).a.mask := by
  simp only [amRgbPixelToColor]
  rw [if_pos h0]
  exact Component.toColor_full h

/-- Where the components of the colors are of four or of five bits, which of them are kept. -/
theorem blend_iff (ht : t.isRgb = true) {p q : BitVec 32} (h : t.Opaque p)
    (ha : (amRgbPixelToColor (osdFormats t) p).a ≠ 0xFF) :
    amColorToRgbPixel (osdFormats t)
        ((amRgbPixelToColor (osdFormats t) p).blend (amRgbPixelToColor (osdFormats t) q)) =
      amColorToRgbPixel (osdFormats t) (amRgbPixelToColor (osdFormats t) p) ↔
    t.KeepsColor (amRgbPixelToColor (osdFormats t) p) (amRgbPixelToColor (osdFormats t) q) := by
  have hp := packed_of_isRgb ht
  rw [hp.amColorToRgbPixel_eq_iff (blend_a h q)]
  have h0 : (osdFormats t).a.mask ≠ 0 := fun h0 => ha (by
    simp only [amRgbPixelToColor]
    exact if_neg (not_not_intro h0))
  have hfull := opaque_a h h0
  simp only [Color.blend]
  rw [hfull] at ha ⊢
  unfold PixelFormatType.KeepsColor
  cases t with
  | argb4444 | bgra4444 =>
    exact and_congr (Component.toPixel_blend_four hp.r rfl)
      (and_congr (Component.toPixel_blend_four hp.g rfl) (Component.toPixel_blend_four hp.b rfl))
  | argb1555 | bgra5551 =>
    exact and_congr (Component.toPixel_blend_five hp.r rfl)
      (and_congr (Component.toPixel_blend_five hp.g rfl) (Component.toPixel_blend_five hp.b rfl))
  | palette256 | yuv420 | yuv422 | yuv444 => exact absurd ht (by decide)
  | rgb565 | bgr565 | rgb888 | bgr888 => exact absurd rfl h0
  | argb8888 | bgra8888 | rgba8888 | abgr8888 => exact absurd (by decide) ha

end Blend

end VendorAmlogic.Osd
