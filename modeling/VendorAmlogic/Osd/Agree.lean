import VendorAmlogic.Osd.Blit

/-!
# Blits that agree

The two blits of equal rectangles, and the blending of opaque pixels beside the
copy of rows: what each of them makes of the bytes of one pixel, and from it
when the pictures are the same.
-/

namespace VendorAmlogic.Osd

open VendorAmlogic.Lib

/-! ## What is made of one pixel -/

section Pixel

variable {t u : PixelFormatType} {colors : Palette} {para : BlitPara} {pix dp dp' : BitVec 32}
  {s d : List Byte}

theorem length_blitPixel (h : blitPixel t u colors para pix dp = some d) :
    d.length = (osdFormats u).bytesPerPixel := by
  unfold blitPixel at h
  simp only at h
  split at h
  · exact absurd h.symm (Option.some_ne_none d)
  split at h
  · exact Option.some.inj h ▸ length_pixBytes _ _
  split at h
  · split at h
    · exact absurd h.symm (Option.some_ne_none d)
    · exact Option.some.inj h ▸ length_pixBytes _ _
  · exact Option.some.inj h ▸ length_pixBytes _ _

/-- Of the pixel of the destination only the color is used. -/
theorem blitPixel_congr
    (h : amRgbPixelToColor (osdFormats u) dp = amRgbPixelToColor (osdFormats u) dp') :
    blitPixel t u colors para pix dp = blitPixel t u colors para pix dp' := by
  simp only [blitPixel, h]

/-- The formats with one byte have no masks, so what is read of them does not matter. -/
theorem stretchRead_color (h : d.length = (osdFormats u).bytesPerPixel) :
    amRgbPixelToColor (osdFormats u) (stretchRead d) =
      amRgbPixelToColor (osdFormats u) (pixValue d) := by
  have hmask : ∀ c : Component, c.mask = 0 → ∀ p q, c.toColor p = c.toColor q := by
    intro c hc p q
    rw [Component.toColor, Component.toColor, hc]
    congr 3
    exact BitVec.and_zero.trans BitVec.and_zero.symm
  unfold stretchRead
  split
  · rename_i h1
    cases u with
    | palette256 | yuv420 | yuv422 | yuv444 =>
      exact Color.ext (hmask _ rfl _ _) (hmask _ rfl _ _) (hmask _ rfl _ _) rfl
    | _ => exact absurd (h1.symm.trans h) (by decide)
  · rfl

/-- Without alpha and key, pixels that are not YUV are stored as they are. -/
theorem blitPixel_plain (ha : para.enableAlpha = false) (hk : para.enableKey = false)
    (ht : t.isYuv = false) (hs : s.length = (osdFormats t).bytesPerPixel) :
    blitPixel t t colors para (pixValue s) dp = some s := by
  have hle := bytesPerPixel_le t
  have hback : pixBytes (osdFormats t).bytesPerPixel (pixValue s) = s := by
    rw [← hs]
    exact pixBytes_pixValue (by omega)
  unfold blitPixel
  rw [if_neg (by rw [hk]; exact fun h => Bool.false_ne_true h.1)]
  simp only
  by_cases hpal : t.isPalette = true
  · rw [if_pos hpal, hback]
  · have hrgb : t.isRgb = true := by
      rw [PixelFormatType.isRgb, ht, Bool.eq_false_iff.mpr hpal]
      rfl
    rw [if_neg hpal, ha, if_neg Bool.false_ne_true, sourceColor, if_neg hpal,
      (packed_of_isRgb hrgb).amColorToRgbPixel_color fun i hi =>
        getLsbD_pixValue_of_le (by rw [hs]; exact hi), hback]

/-- YUV pixels have no components: what is stored for them is zero. -/
theorem blitPixel_yuv (ha : para.enableAlpha = false) (hk : para.enableKey = false)
    (ht : t.isYuv = true) : blitPixel t t colors para pix dp = some [0] := by
  have hmask : ∀ (c : Component) (v : Byte), c.mask = 0 → c.toPixel v = 0 := fun c v hc => by
    rw [Component.toPixel, hc]
    exact BitVec.and_zero
  have hpal : t.isPalette = false := by cases t <;> first | rfl | exact absurd ht (by decide)
  have hcolor : ∀ col, amColorToRgbPixel (osdFormats t) col = 0 := fun col => by
    unfold amColorToRgbPixel
    cases t with
    | yuv420 | yuv422 | yuv444 =>
      rw [hmask _ _ rfl, hmask _ _ rfl, hmask _ _ rfl, hmask _ _ rfl]
      rfl
    | _ => exact absurd ht (by decide)
  unfold blitPixel
  rw [if_neg (by rw [hk]; exact fun h => Bool.false_ne_true h.1)]
  simp only
  rw [hpal, if_neg Bool.false_ne_true, ha, if_neg Bool.false_ne_true, hcolor]
  cases t with
  | yuv420 | yuv422 | yuv444 => rfl
  | _ => exact absurd ht (by decide)

/-- **Blending an opaque pixel** of the same format gives the pixel itself just when its
components are kept. -/
theorem blitPixel_opaque_iff (ht : t.isRgb = true) (ha : para.enableAlpha = true)
    (hk : para.enableKey = false) (hsolid : t.Opaque (pixValue s))
    (hs : s.length = (osdFormats t).bytesPerPixel) :
    (blitPixel t t colors para (pixValue s) dp).getD d = s ↔
      t.KeepsColor (amRgbPixelToColor (osdFormats t) (pixValue s))
        (amRgbPixelToColor (osdFormats t) dp) := by
  have hle := bytesPerPixel_le t
  have hp := packed_of_isRgb ht
  have hhigh : ∀ i, 8 * (osdFormats t).bytesPerPixel ≤ i → (pixValue s).getLsbD i = false :=
    fun i hi => getLsbD_pixValue_of_le (by rw [hs]; exact hi)
  have hback : pixBytes (osdFormats t).bytesPerPixel (pixValue s) = s := by
    rw [← hs]
    exact pixBytes_pixValue (by omega)
  have hpal : ¬ t.isPalette = true := fun h => by
    rw [PixelFormatType.isRgb, h] at ht
    exact Bool.false_ne_true ht
  -- an opaque pixel has the most alpha of its format, which is never none
  have halpha : (amRgbPixelToColor (osdFormats t) (pixValue s)).a ≠ 0 := by
    by_cases h0 : (osdFormats t).a.mask = 0
    · simp only [amRgbPixelToColor]
      rw [if_neg (not_not_intro h0)]
      decide
    · rw [opaque_a hsolid h0]
      cases t with
      | palette256 | yuv420 | yuv422 | yuv444 => exact absurd ht (by decide)
      | rgb565 | bgr565 | rgb888 | bgr888 => exact absurd rfl h0
      | _ => decide
  have hpixel : blitPixel t t colors para (pixValue s) dp =
      some (pixBytes (osdFormats t).bytesPerPixel (amColorToRgbPixel (osdFormats t)
        (if (amRgbPixelToColor (osdFormats t) (pixValue s)).a ≠ 0xFF then
          (amRgbPixelToColor (osdFormats t) (pixValue s)).blend
            (amRgbPixelToColor (osdFormats t) dp)
        else amRgbPixelToColor (osdFormats t) (pixValue s)))) := by
    unfold blitPixel
    rw [if_neg (by rw [hk]; exact fun h => Bool.false_ne_true h.1)]
    simp only
    rw [if_neg hpal, if_pos ha, sourceColor, if_neg hpal, if_neg halpha]
  rw [hpixel, Option.getD_some]
  by_cases hfull : (amRgbPixelToColor (osdFormats t) (pixValue s)).a = 0xFF
  · rw [if_neg (not_not_intro hfull), hp.amColorToRgbPixel_color hhigh, hback]
    refine iff_of_true rfl ?_
    by_cases h0 : (osdFormats t).a.mask = 0
    · cases t with
      | palette256 | yuv420 | yuv422 | yuv444 => exact absurd ht (by decide)
      | rgb565 | bgr565 | rgb888 | bgr888 => exact ⟨trivial, trivial, trivial⟩
      | _ => exact absurd h0 (by decide)
    · rw [opaque_a hsolid h0] at hfull
      cases t with
      | palette256 | yuv420 | yuv422 | yuv444 => exact absurd ht (by decide)
      | argb4444 | bgra4444 | argb1555 | bgra5551 => exact absurd hfull (by decide)
      | _ => exact ⟨trivial, trivial, trivial⟩
  · rw [if_pos hfull, ← blend_iff ht hsolid hfull, hp.amColorToRgbPixel_color hhigh]
    constructor
    · intro h
      exact pixBytes_inj (fun i => hp.getLsbD_of_le _) hhigh (h.trans hback.symm)
    · intro h
      rw [h, hback]

end Pixel

/-! ## What is made of a picture -/

section Pictures

variable {src dst : PixelSurface} {para : BlitPara} {sm m : Plane} {readDst : List Byte → BitVec 32}
  {f : Int × Int → Int × Int} {sr dr dsr ddr : Rect}

def sourceBytes (src : PixelSurface) (sm : Plane) (q : Int × Int) : List Byte :=
  sm.load (src.grid.offset q) src.grid.bpp

/-- What a blit makes of the bytes of a pixel; a pixel that is left out keeps them. -/
def blitted (src dst : PixelSurface) (para : BlitPara) (sm : Plane)
    (readDst : List Byte → BitVec 32) (f : Int × Int → Int × Int) (p : Int × Int)
    (d : List Byte) : List Byte :=
  (blitPixel src.type dst.type src.colors para (pixValue (sourceBytes src sm (f p)))
    (readDst d)).getD d

theorem blitted_keepsLength : dst.grid.KeepsLength (blitted src dst para sm readDst f) := by
  intro p d hd
  unfold blitted
  cases h : blitPixel src.type dst.type src.colors para (pixValue (sourceBytes src sm (f p)))
      (readDst d) with
  | none => exact hd
  | some e => exact (length_blitPixel h).trans dst.bpp_eq.symm

theorem copied_keepsLength (hbpp : src.grid.bpp = dst.grid.bpp) :
    dst.grid.KeepsLength fun p _ => sourceBytes src sm (f p) :=
  fun _ _ _ => (Plane.length_load ..).trans hbpp

theorem blitAll_mem (ps : List (Int × Int)) (b : Blit) :
    (blitAll src dst para sm readDst f ps b).mem =
      dst.grid.update (blitted src dst para sm readDst f) b.mem ps := by
  induction ps generalizing b with
  | nil => rfl
  | cons p ps ih =>
    refine (ih _).trans ?_
    rw [Grid.update_cons]
    congr 1
    unfold blitStep blitted sourceBytes
    simp only
    cases blitPixel src.type dst.type src.colors para
        (pixValue (sm.load (src.grid.offset (f p)) src.grid.bpp))
        (readDst (b.mem.load (dst.grid.offset p) dst.grid.bpp)) with
    | none => exact (Plane.store_load ..).symm
    | some d => rfl

theorem offset_right (g : Grid) (p : Int × Int) :
    g.offset (p.1 + 1, p.2) = g.offset p + g.bpp := by
  simp only [Grid.offset]
  rw [Int.add_mul, Int.one_mul, Int.add_assoc]

/-- A row that is copied is its pixels. -/
theorem copyRow_mem (hbpp : src.grid.bpp = dst.grid.bpp) (d : Int × Int) (w : Nat) (p : Int × Int)
    (m : Plane) :
    m.store (dst.grid.offset p) (sm.load (src.grid.offset (translate d p)) (w * src.grid.bpp)) =
      dst.grid.update (fun p _ => sourceBytes src sm (translate d p)) m (row w p) := by
  induction w generalizing p m with
  | zero =>
    rw [Nat.zero_mul]
    exact Plane.store_nil m _
  | succ w ih =>
    rw [row, Grid.update_cons, ← ih, ← translate_right, offset_right, offset_right,
      Nat.succ_mul, Nat.add_comm, Plane.load_add, Plane.store_append, Plane.length_load, hbpp]
    simp only [sourceBytes, hbpp]

theorem copyRows_mem (hbpp : src.grid.bpp = dst.grid.bpp) (d : Int × Int) (w h : Nat)
    (p : Int × Int) (b : Blit) :
    (copyRows src dst sm w h (translate d p) p b).mem =
      dst.grid.update (fun p _ => sourceBytes src sm (translate d p)) b.mem (block w h p) := by
  induction h generalizing p b with
  | zero => rfl
  | succ h ih =>
    rw [copyRows, translate_down, ih, block, Grid.update_append, ← copyRow_mem hbpp]
    rfl

theorem nodup_row (w : Nat) (p : Int × Int) : (row w p).Nodup := by
  induction w generalizing p with
  | zero => exact List.nodup_nil
  | succ w ih =>
    refine List.nodup_cons.mpr ⟨fun h => ?_, ih _⟩
    have hcol := (mem_row.mp h).2.1
    simp only at hcol
    omega

theorem nodup_block (w h : Nat) (p : Int × Int) : (block w h p).Nodup := by
  induction h generalizing p with
  | zero => exact List.nodup_nil
  | succ h ih =>
    refine List.nodup_append.mpr ⟨nodup_row w p, ih _, fun q hq r hr heq => ?_⟩
    have hline := (mem_row.mp hq).1
    have hbelow := (mem_block.mp hr).2.1
    simp only at hbelow
    rw [← heq] at hbelow
    omega

end Pictures

/-! ## The same pictures -/

section Agree

variable {src dst : PixelSurface} {para : BlitPara} {sm m : Plane} {sr dr dsr ddr : Rect}

/-- The pixel of the source for a pixel of the destination. -/
def sourceOf (sr dr : Rect) : Int × Int → Int × Int := translate (sr.x - dr.x, sr.y - dr.y)

/-- All the alpha bits of the source are set. -/
def OpaqueSource (src : PixelSurface) (sm : Plane) : Prop :=
  ∀ q, src.grid.Has q → src.type.Opaque (pixValue (sourceBytes src sm q))

/-- The surfaces have the same RGB format, and alpha is all that the parameters ask for. -/
structure Blends (src dst : PixelSurface) (para : BlitPara) : Prop where
  type_eq : src.type = dst.type
  isRgb : src.type.isRgb = true
  alpha : para.enableAlpha = true
  key : para.enableKey = false

/-- The stretching blit gives the picture of the other one, and blending an opaque source gives
that of the copy of its rows. -/
structure PathsAgree (src dst : PixelSurface) (para : BlitPara) (sm m : Plane) (sr dr : Rect) :
    Prop where
  stretch : ∃ b, swStretchBlit src dst para sm sr dr ⟨m, [], []⟩ = .ok b ∧
    b.mem = (swNormalBlit src dst para sm sr dr ⟨m, [], []⟩).mem
  blend : Blends src dst para → OpaqueSource src sm →
    (swNormalBlit src dst para sm sr dr ⟨m, [], []⟩).mem =
      (swNormalBlit src dst { para with enableAlpha := false } sm sr dr ⟨m, [], []⟩).mem

/-- The pixels of the destination that get one of the source. -/
def Drawn (src dst : PixelSurface) (sr dr : Rect) (p : Int × Int) : Prop :=
  dst.clip.Has p ∧ dr.Has p ∧ src.grid.Has (sourceOf sr dr p)

/-- The products of the stretching blit are `int`s. YUV pixels that are copied are zero. And a
component of a pixel that is blended is one that blending keeps. -/
structure Agreeable (src dst : PixelSurface) (para : BlitPara) (sm m : Plane) (sr dr : Rect) :
    Prop where
  fits : ∀ dsr ∈ amOsdClipRect src.rect sr, ScaleFits dsr sr dr ∧
    ∀ ddr ∈ amOsdClipRect dst.clip (dsr.moved sr dr), ScaleFits ddr dr sr
  yuv : PlainCopy src dst para → src.type.isYuv = true → ∀ p, Drawn src dst sr dr p →
    sourceBytes src sm (sourceOf sr dr p) = [0]
  kept : Blends src dst para → OpaqueSource src sm → ∀ p, Drawn src dst sr dr p →
    src.type.KeepsColor
      (amRgbPixelToColor (osdFormats src.type) (pixValue (sourceBytes src sm (sourceOf sr dr p))))
      (amRgbPixelToColor (osdFormats src.type) (pixValue (sourceBytes dst m p)))

/-- What the clips leave are the pixels that are drawn. -/
theorem has_iff_drawn (hw : sr.w = dr.w) (hh : sr.h = dr.h)
    (h1 : amOsdClipRect src.rect sr = some dsr)
    (h2 : amOsdClipRect dst.clip (dsr.moved sr dr) = some ddr) (p : Int × Int) :
    ddr.Has p ↔ Drawn src dst sr dr p := by
  rw [(amOsdClipRect_some h2).2.2 p]
  have hq : dsr.Has (sourceOf sr dr p) ↔ (dsr.moved sr dr).Has p := by
    simp only [Rect.Has, Rect.moved, sourceOf, translate]
    omega
  rw [← hq, (amOsdClipRect_some h1).2.2 _]
  refine and_congr_right fun _ => ?_
  simp only [Rect.Has, Surface.rect, Grid.Has, sourceOf, translate]
  omega

theorem not_drawn_of_source (hw : sr.w = dr.w) (hh : sr.h = dr.h)
    (h : amOsdClipRect src.rect sr = none) (p : Int × Int) : ¬ Drawn src dst sr dr p := by
  rintro ⟨-, hd, hs⟩
  refine amOsdClipRect_none h (sourceOf sr dr p) ?_
  simp only [Rect.Has, Surface.rect, Grid.Has, sourceOf, translate] at hd hs ⊢
  omega

theorem not_drawn_of_clip (hw : sr.w = dr.w) (hh : sr.h = dr.h)
    (h1 : amOsdClipRect src.rect sr = some dsr)
    (h2 : amOsdClipRect dst.clip (dsr.moved sr dr) = none) (p : Int × Int) :
    ¬ Drawn src dst sr dr p := by
  rintro ⟨hc, hd, hs⟩
  have hq : dsr.Has (sourceOf sr dr p) := ((amOsdClipRect_some h1).2.2 _).mpr (by
    simp only [Rect.Has, Surface.rect, Grid.Has, sourceOf, translate] at hd hs ⊢
    omega)
  refine amOsdClipRect_none h2 p ⟨hc, ?_⟩
  simp only [Rect.Has, Rect.moved, sourceOf, translate] at hq ⊢
  omega

/-- Nothing is scaled. -/
theorem scaled_eq (hw : sr.w = dr.w) (hh : sr.h = dr.h) (hs : sr.Positive) (r : Rect) :
    r.scaled sr dr = r.moved sr dr := by
  have hwne := hs.w_pos.ne'
  have hhne := hs.h_pos.ne'
  simp only [Rect.scaled, Rect.moved, ← hw, ← hh, Int.mul_ediv_cancel _ hwne,
    Int.mul_ediv_cancel _ hhne, Rect.mk.injEq, and_true]
  omega

theorem scaleBack_eq (hw : sr.w = dr.w) (hh : sr.h = dr.h) (hs : sr.Positive) (r : Rect) :
    scaleBack sr dr (r.x, r.y) ((r.scaled dr sr).x, (r.scaled dr sr).y) = sourceOf sr dr := by
  have hwne := hs.w_pos.ne'
  have hhne := hs.h_pos.ne'
  funext p
  simp only [scaleBack, Rect.scaled, sourceOf, translate, ← hw, ← hh,
    Int.mul_ediv_cancel _ hwne, Int.mul_ediv_cancel _ hhne]
  exact Prod.ext (by simp only; omega) (by simp only; omega)

/-- What the stretching blit does with rectangles of the same size. -/
theorem swStretchBlit_same (hw : sr.w = dr.w) (hh : sr.h = dr.h) (hmax : sr.w ≤ maxW)
    (h1 : amOsdClipRect src.rect sr = some dsr) (b : Blit) :
    swStretchBlit src dst para sm sr dr b =
      if ScaleFits dsr sr dr then
        match amOsdClipRect dst.clip (dsr.moved sr dr) with
        | none => .ok b
        | some ddr =>
          if ScaleFits ddr dr sr then
            .ok (blitAll src dst para sm stretchRead (sourceOf sr dr)
              (block ddr.w.toNat ddr.h.toNat (ddr.x, ddr.y)) b)
          else .error .overflow
      else .error .overflow := by
  obtain ⟨hdsr, hdw, hdh⟩ := amOsdClipRect_eq h1
  have hs : sr.Positive := by
    rw [hdsr] at hdw hdh
    simp only [Rect.inter] at hdw hdh
    exact ⟨by omega, by omega⟩
  have hd : dr.Positive := ⟨hw ▸ hs.w_pos, hh ▸ hs.h_pos⟩
  rw [swStretchBlit_eq hs hd, h1]
  simp only [scaled_eq hw hh hs, scaleBack_eq hw hh hs]
  cases h2 : amOsdClipRect dst.clip (dsr.moved sr dr) with
  | none => rfl
  | some ddr =>
    have hnarrow : ¬ ddr.w > maxW := by
      obtain ⟨rfl, -, -⟩ := amOsdClipRect_eq h2
      rw [hdsr]
      simp only [Rect.inter, Rect.moved]
      omega
    simp only [if_neg hnarrow]

/-- The pixels of the two blits, one by one. -/
theorem blitAll_same_iff (hv : dst.Valid) {ps : List (Int × Int)} {w h : Nat} {p : Int × Int}
    (hps : ps = block w h p) (hin : ∀ r ∈ ps, dst.grid.Has r) :
    (blitAll src dst para sm stretchRead (sourceOf sr dr) ps ⟨m, [], []⟩).mem =
        (if PlainCopy src dst para then copyRows src dst sm w h (sourceOf sr dr p) p ⟨m, [], []⟩
          else blitAll src dst para sm pixValue (sourceOf sr dr) ps ⟨m, [], []⟩).mem ↔
      (PlainCopy src dst para → src.type.isYuv = true →
        ∀ r ∈ ps, sourceBytes src sm (sourceOf sr dr r) = [0]) := by
  by_cases hplain : PlainCopy src dst para
  · obtain ⟨htype, ha, hk⟩ := id hplain
    have hbpp : src.grid.bpp = dst.grid.bpp := by rw [src.bpp_eq, dst.bpp_eq, htype]
    rw [if_pos hplain, blitAll_mem, sourceOf, copyRows_mem hbpp, ← hps,
      Grid.update_eq_iff hv.grid blitted_keepsLength (copied_keepsLength hbpp) hin
        (hps ▸ nodup_block w h p)]
    simp only [forall_const, hplain]
    have hlen : ∀ r, (sourceBytes src sm r).length = (osdFormats src.type).bytesPerPixel :=
      fun r => (Plane.length_load ..).trans src.bpp_eq
    by_cases hyuv : src.type.isYuv = true
    · simp only [hyuv, forall_const]
      refine forall₂_congr fun r _ => ?_
      rw [blitted, ← htype, blitPixel_yuv ha hk hyuv, Option.getD_some]
      exact eq_comm
    · refine iff_of_true (fun r _ => ?_) fun h => absurd h hyuv
      rw [blitted, ← htype, blitPixel_plain ha hk (Bool.eq_false_iff.mpr hyuv) (hlen _),
        Option.getD_some]
  · rw [if_neg hplain, blitAll_mem, blitAll_mem]
    refine iff_of_true (Grid.update_congr (fun r _ d hd => ?_) m) fun h => absurd h hplain
    unfold blitted
    rw [blitPixel_congr (stretchRead_color (hd.trans dst.bpp_eq))]

/-- Blending beside copying, pixel by pixel. -/
theorem blitAll_blend_iff (hv : dst.Valid) (hb : Blends src dst para) (ho : OpaqueSource src sm)
    {ps : List (Int × Int)} {w h : Nat} {p : Int × Int} (hps : ps = block w h p)
    (hin : ∀ r ∈ ps, dst.grid.Has r) (hsrc : ∀ r ∈ ps, src.grid.Has (sourceOf sr dr r)) :
    (blitAll src dst para sm pixValue (sourceOf sr dr) ps ⟨m, [], []⟩).mem =
        (copyRows src dst sm w h (sourceOf sr dr p) p ⟨m, [], []⟩).mem ↔
      ∀ r ∈ ps, src.type.KeepsColor
        (amRgbPixelToColor (osdFormats src.type)
          (pixValue (sourceBytes src sm (sourceOf sr dr r))))
        (amRgbPixelToColor (osdFormats src.type) (pixValue (sourceBytes dst m r))) := by
  have hbpp : src.grid.bpp = dst.grid.bpp := by rw [src.bpp_eq, dst.bpp_eq, hb.type_eq]
  rw [blitAll_mem, sourceOf, copyRows_mem hbpp, ← hps,
    Grid.update_eq_iff hv.grid blitted_keepsLength (copied_keepsLength hbpp) hin
      (hps ▸ nodup_block w h p)]
  refine forall₂_congr fun r hr => ?_
  rw [blitted, ← hb.type_eq]
  exact blitPixel_opaque_iff hb.isRgb hb.alpha hb.key (ho _ (hsrc r hr))
    ((Plane.length_load ..).trans src.bpp_eq)

/-- When the stretching blit makes the same picture. -/
theorem stretch_agrees_iff (hv : dst.Valid) (hclip : dst.Fits dr) (hw : sr.w = dr.w)
    (hh : sr.h = dr.h) (hmax : sr.w ≤ maxW) :
    (∃ b, swStretchBlit src dst para sm sr dr ⟨m, [], []⟩ = .ok b ∧
        b.mem = (swNormalBlit src dst para sm sr dr ⟨m, [], []⟩).mem) ↔
      (∀ dsr ∈ amOsdClipRect src.rect sr, ScaleFits dsr sr dr ∧
        ∀ ddr ∈ amOsdClipRect dst.clip (dsr.moved sr dr), ScaleFits ddr dr sr) ∧
      (PlainCopy src dst para → src.type.isYuv = true → ∀ p, Drawn src dst sr dr p →
        sourceBytes src sm (sourceOf sr dr p) = [0]) := by
  rw [swNormalBlit_eq]
  cases h1 : amOsdClipRect src.rect sr with
  | none =>
    have hstretch : swStretchBlit src dst para sm sr dr ⟨m, [], []⟩ = .ok ⟨m, [], []⟩ := by
      unfold swStretchBlit
      change (match amOsdClipRect src.rect sr with | none => _ | some dsr => _) = _
      rw [h1]
      rfl
    exact iff_of_true ⟨_, hstretch, rfl⟩ ⟨fun dsr h => absurd h (Option.not_mem_none _),
      fun _ _ p hp => absurd hp (not_drawn_of_source hw hh h1 p)⟩
  | some dsr =>
    rw [swStretchBlit_same hw hh hmax h1]
    simp only [Option.mem_some_iff, forall_eq']
    by_cases hf : ScaleFits dsr sr dr
    · rw [if_pos hf]
      simp only [hf, true_and]
      cases h2 : amOsdClipRect dst.clip (dsr.moved sr dr) with
      | none =>
        exact iff_of_true ⟨_, rfl, rfl⟩ ⟨fun ddr h => absurd h (Option.not_mem_none _),
          fun _ _ p hp => absurd hp (not_drawn_of_clip hw hh h1 h2 p)⟩
      | some ddr =>
        simp only [Option.mem_some_iff, forall_eq']
        by_cases hf' : ScaleFits ddr dr sr
        · rw [if_pos hf']
          simp only [hf', true_and, Except.ok.injEq, exists_eq_left']
          have hhas := has_iff_drawn hw hh h1 h2
          have hin : ∀ r ∈ block ddr.w.toNat ddr.h.toNat (ddr.x, ddr.y), dst.grid.Has r :=
            fun r hr =>
              have hr := (hhas r).mp (mem_block_rect.mp hr)
              fits_iff.mp hclip r hr.2.1 hr.1
          simp only [← hhas, ← mem_block_rect]
          exact blitAll_same_iff hv rfl hin
        · rw [if_neg hf']
          exact iff_of_false (by rintro ⟨b, hb, -⟩; cases hb) fun h => hf' h.1
    · rw [if_neg hf]
      exact iff_of_false (by rintro ⟨b, hb, -⟩; cases hb) fun h => hf h.1.1

/-- When the blending of an opaque source makes the picture of the copied rows. -/
theorem blend_agrees_iff (hv : dst.Valid) (hclip : dst.Fits dr) (hw : sr.w = dr.w)
    (hh : sr.h = dr.h) (hb : Blends src dst para) (ho : OpaqueSource src sm) :
    (swNormalBlit src dst para sm sr dr ⟨m, [], []⟩).mem =
        (swNormalBlit src dst { para with enableAlpha := false } sm sr dr ⟨m, [], []⟩).mem ↔
      ∀ p, Drawn src dst sr dr p → src.type.KeepsColor
        (amRgbPixelToColor (osdFormats src.type)
          (pixValue (sourceBytes src sm (sourceOf sr dr p))))
        (amRgbPixelToColor (osdFormats src.type) (pixValue (sourceBytes dst m p))) := by
  have hpixels : ¬ PlainCopy src dst para := fun h =>
    Bool.false_ne_true (h.2.1.symm.trans hb.alpha)
  have hrows : PlainCopy src dst { para with enableAlpha := false } := ⟨hb.type_eq, rfl, hb.key⟩
  rw [swNormalBlit_eq, swNormalBlit_eq]
  cases h1 : amOsdClipRect src.rect sr with
  | none => exact iff_of_true rfl fun p hp => absurd hp (not_drawn_of_source hw hh h1 p)
  | some dsr =>
    simp only
    cases h2 : amOsdClipRect dst.clip (dsr.moved sr dr) with
    | none => exact iff_of_true rfl fun p hp => absurd hp (not_drawn_of_clip hw hh h1 h2 p)
    | some ddr =>
      simp only
      have hhas := has_iff_drawn hw hh h1 h2
      have hdrawn : ∀ r ∈ block ddr.w.toNat ddr.h.toNat (ddr.x, ddr.y), Drawn src dst sr dr r :=
        fun r hr => (hhas r).mp (mem_block_rect.mp hr)
      rw [if_neg hpixels, if_pos hrows]
      simp only [← hhas, ← mem_block_rect]
      exact blitAll_blend_iff hv hb ho rfl
        (fun r hr => fits_iff.mp hclip r (hdrawn r hr).2.1 (hdrawn r hr).1)
        fun r hr => (hdrawn r hr).2.2

/-- **Blits agree**: for rectangles of the same size, the stretching blit makes the picture that the
other one makes and the blending of an opaque source that of the copied rows just when no product
overflows, the YUV pixels that are copied are zero and blending keeps the components. -/
theorem blits_agree_iff (hv : dst.Valid) (hclip : dst.Fits dr) (hw : sr.w = dr.w)
    (hh : sr.h = dr.h) (hmax : sr.w ≤ maxW) :
    PathsAgree src dst para sm m sr dr ↔ Agreeable src dst para sm m sr dr := by
  constructor
  · intro h
    obtain ⟨hfits, hyuv⟩ := (stretch_agrees_iff hv hclip hw hh hmax).mp h.stretch
    exact ⟨hfits, hyuv, fun hb ho => (blend_agrees_iff hv hclip hw hh hb ho).mp (h.blend hb ho)⟩
  · intro h
    exact ⟨(stretch_agrees_iff hv hclip hw hh hmax).mpr ⟨h.fits, h.yuv⟩, fun hb ho =>
      (blend_agrees_iff hv hclip hw hh hb ho).mpr (h.kept hb ho)⟩

/-- Four by three pixels of a format; the clip leaves two by two of them. -/
def examplePicture (t : PixelFormatType) : PixelSurface where
  grid := ⟨4, 3, 16, (osdFormats t).bytesPerPixel⟩
  clip := ⟨1, 1, 2, 2⟩
  type := t
  colors := []
  bpp_eq := rfl

theorem examplePicture_valid (t : PixelFormatType) : (examplePicture t).Valid := by
  have hle := bytesPerPixel_le t
  refine ⟨⟨hle.1, Int.natCast_nonneg 4, Int.natCast_nonneg 3, ?_⟩, hle.2⟩
  show (4 : Int) * (osdFormats t).bytesPerPixel ≤ 16
  omega

/-- Opaque pixels of eight bits for each component; the rectangles go over the right edge of the
source and over the clip of the destination. -/
theorem blits_agree_bgra8888 :
    PathsAgree (examplePicture .bgra8888) (examplePicture .bgra8888) ⟨true, false, 0⟩
      (fun a => if a % 4 = 3 then 0xFF else BitVec.ofInt 8 a) (fun _ => 0) ⟨1, 0, 4, 3⟩
      ⟨0, 0, 4, 3⟩ := by
  refine (blits_agree_iff (examplePicture_valid _) ?_ ?_ ?_ ?_).mpr
    ⟨?_, fun h => absurd h.2.1 ?_, fun _ _ _ _ => ⟨trivial, trivial, trivial⟩⟩
  all_goals decide

/-- One pixel of a format. -/
def examplePixel (t : PixelFormatType) : PixelSurface where
  grid := ⟨1, 1, 4, (osdFormats t).bytesPerPixel⟩
  clip := ⟨0, 0, 1, 1⟩
  type := t
  colors := []
  bpp_eq := rfl

theorem examplePixel_valid (t : PixelFormatType) : (examplePixel t).Valid := by
  have hle := bytesPerPixel_le t
  refine ⟨⟨hle.1, Int.one_nonneg, Int.one_nonneg, ?_⟩, hle.2⟩
  show (1 : Int) * (osdFormats t).bytesPerPixel ≤ 4
  omega

/-- White of four bits for each component, on black. -/
theorem blits_not_agree_bgra4444 :
    ¬ ∀ (src dst : PixelSurface) (para : BlitPara) (sm m : Plane) (sr dr : Rect), dst.Valid →
      dst.Fits dr → sr.w = dr.w → sr.h = dr.h → sr.w ≤ maxW →
      PathsAgree src dst para sm m sr dr := by
  intro h
  have hagree := h (examplePixel .bgra4444) (examplePixel .bgra4444) ⟨true, false, 0⟩
    (fun _ => 0xFF) (fun _ => 0) ⟨0, 0, 1, 1⟩ ⟨0, 0, 1, 1⟩ (examplePixel_valid _) (by decide) rfl
    rfl (by decide)
  have hsolid : OpaqueSource (examplePixel .bgra4444) fun _ => 0xFF := fun _ _ =>
    show PixelFormatType.Opaque .bgra4444 (pixValue [0xFF, 0xFF]) by decide
  have hsame := hagree.blend ⟨rfl, rfl, rfl, rfl⟩ hsolid
  exact absurd (congrFun hsame 0) (by decide)

end Agree

end VendorAmlogic.Osd
