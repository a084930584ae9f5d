import VendorAmlogic.Osd.Pixel

/-!
# Blits of software surfaces

`sw_normal_blit`, `sw_stretch_blit` and `sw_blit` of `am_osd/sw_op.c`, and where
they read and store. The surfaces are two, so their buffers are two planes; a
pointer into a buffer is the pixel it points to. The lock around the table
`convx` is left out, and so are the messages.
-/

namespace VendorAmlogic.Osd

open VendorAmlogic.Lib

/-- What the blits use of an `AM_OSD_Surface_t`. -/
structure PixelSurface extends Surface where
  type : PixelFormatType
  colors : Palette
  bpp_eq : grid.bpp = (osdFormats type).bytesPerPixel

/-- The memory of the destination, the pixels of the source that are read and those of the
destination that are stored to. -/
structure Blit where
  mem : Plane
  reads : List (Int × Int)
  writes : List (Int × Int)

inductive Trap where
  | overflow | divByZero
  deriving DecidableEq, Repr

/-! ## Model -/

/-- `MAX_W`. -/
def maxW : Int := 1920

/-- `a*b/c`. -/
def mulDiv (a b c : Int) : Except Trap Int :=
  if ¬ FitsInt (a * b) then .error .overflow
  else if c = 0 then .error .divByZero
  else if a * b = -2 ^ 31 ∧ c = -1 then .error .overflow
  else .ok ((a * b).tdiv c)

/-- The part `r` of the rectangle `u`, in the rectangle `v`. -/
def scaleRect (r u v : Rect) : Except Trap Rect := do
  let x ← mulDiv (r.x - u.x) v.w u.w
  let y ← mulDiv (r.y - u.y) v.h u.h
  let w ← mulDiv r.w v.w u.w
  let h ← mulDiv r.h v.h u.h
  return ⟨x + v.x, y + v.y, w, h⟩

/-- The pixel of the destination as `sw_stretch_blit` reads it: its `switch` has no `case 1`. -/
def stretchRead (d : List Byte) : BitVec 32 := if d.length = 1 then 0 else pixValue d

section Model

variable (src dst : PixelSurface) (para : BlitPara) (sm : Plane) (readDst : List Byte → BitVec 32)

/-- One pixel: `q` of the source, `p` of the destination. -/
def blitStep (q p : Int × Int) (b : Blit) : Blit :=
  let pix := pixValue (sm.load (src.grid.offset q) src.grid.bpp)
  let dp := readDst (b.mem.load (dst.grid.offset p) dst.grid.bpp)
  match blitPixel src.type dst.type src.colors para pix dp with
  | none => { b with reads := b.reads ++ [q] }
  | some d => ⟨b.mem.store (dst.grid.offset p) d, b.reads ++ [q], b.writes ++ [p]⟩

/-- `while(dw--)` of `sw_normal_blit`. -/
def pixelRow : Nat → Int × Int → Int × Int → Blit → Blit
  | 0, _, _, b => b
  | w + 1, q, p, b =>
    pixelRow w (q.1 + 1, q.2) (p.1 + 1, p.2) (blitStep src dst para sm readDst q p b)

def pixelRows (w : Nat) : Nat → Int × Int → Int × Int → Blit → Blit
  | 0, _, _, b => b
  | h + 1, q, p, b =>
    pixelRows w h (q.1, q.2 + 1) (p.1, p.2 + 1) (pixelRow src dst para sm readDst w q p b)

/-- `memcpy` of a row. -/
def copyRow (w : Nat) (q p : Int × Int) (b : Blit) : Blit where
  mem := b.mem.store (dst.grid.offset p) (sm.load (src.grid.offset q) (w * src.grid.bpp))
  reads := b.reads ++ row w q
  writes := b.writes ++ row w p

def copyRows (w : Nat) : Nat → Int × Int → Int × Int → Blit → Blit
  | 0, _, _, b => b
  | h + 1, q, p, b => copyRows w h (q.1, q.2 + 1) (p.1, p.2 + 1) (copyRow src dst sm w q p b)

/-- The rows are copied as they are. -/
def PlainCopy (src dst : PixelSurface) (para : BlitPara) : Prop :=
  src.type = dst.type ∧ para.enableAlpha = false ∧ para.enableKey = false

instance : Decidable (PlainCopy src dst para) := inferInstanceAs (Decidable (_ ∧ _))

def swNormalBlit (sr dr : Rect) (b : Blit) : Blit :=
  match amOsdClipRect ⟨0, 0, src.grid.width, src.grid.height⟩ sr with
  | none => b
  | some dsr =>
    match amOsdClipRect dst.clip ⟨dsr.x + dr.x - sr.x, dsr.y + dr.y - sr.y, dsr.w, dsr.h⟩ with
    | none => b
    | some ddr =>
      let q := (ddr.x + sr.x - dr.x, ddr.y + sr.y - dr.y)
      let p := (ddr.x, ddr.y)
      if PlainCopy src dst para then copyRows src dst sm ddr.w.toNat ddr.h.toNat q p b
      else pixelRows src dst para sm pixValue ddr.w.toNat ddr.h.toNat q p b

/-- The columns of the source from column `i` of the destination on; `convx` has them in bytes. -/
def convx (sw dw x : Int) (i : Nat) : Nat → Except Trap (List Int)
  | 0 => return []
  | left + 1 => do
    let c ← mulDiv i sw dw
    let cs ← convx sw dw x (i + 1) left
    return (c + x) :: cs

/-- `while(dw--)` of `sw_stretch_blit`, in row `y` of the source. -/
def stretchRow (y : Int) : List Int → Int × Int → Blit → Blit
  | [], _, b => b
  | x :: xs, p, b =>
    stretchRow y xs (p.1 + 1, p.2) (blitStep src dst para sm stretchRead (x, y) p b)

def stretchRows (sh dh dy : Int) (xs : List Int) :
    Nat → Nat → Int × Int → Blit → Except Trap Blit
  | 0, _, _, b => return b
  | left + 1, y, p, b => do
    let c ← mulDiv y sh dh
    stretchRows sh dh dy xs left (y + 1) (p.1, p.2 + 1)
      (stretchRow src dst para sm (c + dy) xs p b)

def swStretchBlit (sr dr : Rect) (b : Blit) : Except Trap Blit :=
  match amOsdClipRect ⟨0, 0, src.grid.width, src.grid.height⟩ sr with
  | none => return b
  | some dsr => do
    let tmpr ← scaleRect dsr sr dr
    match amOsdClipRect dst.clip tmpr with
    | none => return b
    | some ddr =>
      let dsr ← scaleRect ddr dr sr
      if ddr.w > maxW then return b
      let xs ← convx sr.w dr.w dsr.x 0 ddr.w.toNat
      stretchRows src dst para sm sr.h dr.h dsr.y xs ddr.h.toNat 0 (ddr.x, ddr.y) b

def swBlit (sr dr : Rect) (b : Blit) : Except Trap Blit :=
  if sr.w = dr.w ∧ sr.h = dr.h then return swNormalBlit src dst para sm sr dr b
  else swStretchBlit src dst para sm sr dr b

end Model

/-! ## Scaling -/

section Scaling

variable {a b c : Int}

/-- Products that are not negative, over a size. -/
theorem mulDiv_eq (ha : 0 ≤ a) (hb : 0 ≤ b) (hc : 0 < c) :
    mulDiv a b c = if a * b < 2 ^ 31 then .ok (a * b / c) else .error .overflow := by
  have hprod : 0 ≤ a * b := Int.mul_nonneg ha hb
  unfold mulDiv FitsInt
  by_cases h : a * b < 2 ^ 31
  · rw [if_neg (by omega), if_neg (by omega), if_neg (by omega), if_pos h,
      Int.tdiv_eq_ediv_of_nonneg hprod]
  · rw [if_pos (by omega), if_neg h]

/-- The part of a rectangle has no less than nothing of it. -/
structure Rect.PartOf (r u : Rect) : Prop where
  x_le : u.x ≤ r.x
  y_le : u.y ≤ r.y
  w_nonneg : 0 ≤ r.w
  h_nonneg : 0 ≤ r.h

structure Rect.Positive (r : Rect) : Prop where
  w_pos : 0 < r.w
  h_pos : 0 < r.h

/-- The products of the scaling are `int`s. -/
def ScaleFits (r u v : Rect) : Prop :=
  (r.x - u.x) * v.w < 2 ^ 31 ∧ (r.y - u.y) * v.h < 2 ^ 31 ∧ r.w * v.w < 2 ^ 31 ∧
    r.h * v.h < 2 ^ 31

instance (r u v : Rect) : Decidable (ScaleFits r u v) := inferInstanceAs (Decidable (_ ∧ _))

def Rect.scaled (r u v : Rect) : Rect where
  x := (r.x - u.x) * v.w / u.w + v.x
  y := (r.y - u.y) * v.h / u.h + v.y
  w := r.w * v.w / u.w
  h := r.h * v.h / u.h

theorem scaleRect_eq {r u v : Rect} (hr : r.PartOf u) (hu : u.Positive) (hv : v.Positive) :
    scaleRect r u v = if ScaleFits r u v then .ok (r.scaled u v) else .error .overflow := by
  have hx := hr.x_le
  have hy := hr.y_le
  unfold scaleRect
  rw [mulDiv_eq (by omega) hv.w_pos.le hu.w_pos, mulDiv_eq (by omega) hv.h_pos.le hu.h_pos,
    mulDiv_eq hr.w_nonneg hv.w_pos.le hu.w_pos, mulDiv_eq hr.h_nonneg hv.h_pos.le hu.h_pos]
  by_cases h1 : (r.x - u.x) * v.w < 2 ^ 31
  · by_cases h2 : (r.y - u.y) * v.h < 2 ^ 31
    · by_cases h3 : r.w * v.w < 2 ^ 31
      · by_cases h4 : r.h * v.h < 2 ^ 31
        · rw [if_pos h1, if_pos h2, if_pos h3, if_pos h4, 
            if_pos (show ScaleFits r u v from ⟨h1, h2, h3, h4⟩)]
          rfl
        · rw [if_pos h1, if_pos h2, if_pos h3, if_neg h4,
            if_neg fun h : ScaleFits r u v => h4 h.2.2.2]
          rfl
      · rw [if_pos h1, if_pos h2, if_neg h3, if_neg fun h : ScaleFits r u v => h3 h.2.2.1]
        rfl
    · rw [if_pos h1, if_neg h2, if_neg fun h : ScaleFits r u v => h2 h.2.1]
      rfl
  · rw [if_neg h1, if_neg fun h : ScaleFits r u v => h1 h.1]
    rfl

end Scaling

/-! ## The pixels of the loops -/

section Loops

variable {src dst : PixelSurface} {para : BlitPara} {sm : Plane} {readDst : List Byte → BitVec 32}
  {f : Int × Int → Int × Int}

/-- One pixel after the other, each with its own pixel of the source. -/
def blitAll (src dst : PixelSurface) (para : BlitPara) (sm : Plane)
    (readDst : List Byte → BitVec 32) (f : Int × Int → Int × Int) (ps : List (Int × Int))
    (b : Blit) : Blit :=
  ps.foldl (fun b p => blitStep src dst para sm readDst (f p) p b) b

theorem blitAll_append (ps qs : List (Int × Int)) (b : Blit) :
    blitAll src dst para sm readDst f (ps ++ qs) b =
      blitAll src dst para sm readDst f qs (blitAll src dst para sm readDst f ps b) :=
  List.foldl_append

theorem blitAll_congr {g : Int × Int → Int × Int} {ps : List (Int × Int)}
    (h : ∀ p ∈ ps, f p = g p) (b : Blit) :
    blitAll src dst para sm readDst f ps b = blitAll src dst para sm readDst g ps b := by
  unfold blitAll
  refine List.foldl_ext _ _ _ fun b p hp => ?_
  rw [h p hp]

theorem blitStep_reads (q p : Int × Int) (b : Blit) :
    (blitStep src dst para sm readDst q p b).reads = b.reads ++ [q] := by
  unfold blitStep
  simp only
  split <;> rfl

theorem blitStep_writes {q p r : Int × Int} {b : Blit}
    (h : r ∈ (blitStep src dst para sm readDst q p b).writes) : r ∈ b.writes ∨ r = p := by
  unfold blitStep at h
  simp only at h
  split at h
  · exact .inl h
  · exact (List.mem_append.mp h).imp_right List.mem_singleton.mp

theorem blitAll_reads (ps : List (Int × Int)) (b : Blit) :
    (blitAll src dst para sm readDst f ps b).reads = b.reads ++ ps.map f := by
  induction ps generalizing b with
  | nil => exact (List.append_nil _).symm
  | cons p ps ih =>
    refine (ih _).trans ?_
    rw [blitStep_reads, List.map_cons, List.append_assoc, List.singleton_append]

theorem blitAll_writes {ps : List (Int × Int)} {b : Blit} {r : Int × Int}
    (h : r ∈ (blitAll src dst para sm readDst f ps b).writes) : r ∈ b.writes ∨ r ∈ ps := by
  induction ps generalizing b with
  | nil => exact .inl h
  | cons p ps ih =>
    rcases ih h with hr | hr
    · exact (blitStep_writes hr).imp_right fun hp : r = p => hp ▸ List.mem_cons_self
    · exact .inr (List.mem_cons_of_mem _ hr)

/-- The pixel at the same place, `d` away. -/
def translate (d p : Int × Int) : Int × Int := (p.1 + d.1, p.2 + d.2)

theorem translate_right (d p : Int × Int) :
    ((translate d p).1 + 1, (translate d p).2) = translate d (p.1 + 1, p.2) :=
  Prod.ext (Int.add_right_comm ..) rfl

theorem translate_down (d p : Int × Int) :
    ((translate d p).1, (translate d p).2 + 1) = translate d (p.1, p.2 + 1) :=
  Prod.ext rfl (Int.add_right_comm ..)

theorem row_translate (d : Int × Int) (w : Nat) (p : Int × Int) :
    row w (translate d p) = (row w p).map (translate d) := by
  induction w generalizing p with
  | zero => rfl
  | succ w ih => rw [row, row, List.map_cons, translate_right, ih]

theorem block_translate (d : Int × Int) (w h : Nat) (p : Int × Int) :
    block w h (translate d p) = (block w h p).map (translate d) := by
  induction h generalizing p with
  | zero => rfl
  | succ h ih => rw [block, block, List.map_append, row_translate, translate_down, ih]

theorem pixelRow_eq (d : Int × Int) (w : Nat) (p : Int × Int) (b : Blit) :
    pixelRow src dst para sm readDst w (translate d p) p b =
      blitAll src dst para sm readDst (translate d) (row w p) b := by
  induction w generalizing p b with
  | zero => rfl
  | succ w ih =>
    rw [pixelRow, translate_right, ih]
    rfl

theorem pixelRows_eq (d : Int × Int) (w h : Nat) (p : Int × Int) (b : Blit) :
    pixelRows src dst para sm readDst w h (translate d p) p b =
      blitAll src dst para sm readDst (translate d) (block w h p) b := by
  induction h generalizing p b with
  | zero => rfl
  | succ h ih => rw [pixelRows, translate_down, ih, pixelRow_eq, block, blitAll_append]

theorem copyRows_reads (w h : Nat) (q p : Int × Int) (b : Blit) :
    (copyRows src dst sm w h q p b).reads = b.reads ++ block w h q := by
  induction h generalizing q p b with
  | zero => exact (List.append_nil _).symm
  | succ h ih =>
    rw [copyRows, ih, block, ← List.append_assoc]
    rfl

theorem copyRows_writes (w h : Nat) (q p : Int × Int) (b : Blit) :
    (copyRows src dst sm w h q p b).writes = b.writes ++ block w h p := by
  induction h generalizing q p b with
  | zero => exact (List.append_nil _).symm
  | succ h ih =>
    rw [copyRows, ih, block, ← List.append_assoc]
    rfl

/-- The columns, when the products for a width that covers them are `int`s. -/
theorem convx_eq {sw dw : Int} (hs : 0 < sw) (hd : 0 < dw) (x : Int) (i left : Nat) {w : Int}
    (hi : (i : Int) + left ≤ w) (hw : w * sw < 2 ^ 31) :
    convx sw dw x i left = .ok ((List.range' i left).map fun k : Nat => k * sw / dw + x) := by
  induction left generalizing i with
  | zero => rfl
  | succ left ih =>
    have hfits : (i : Int) * sw < 2 ^ 31 :=
      lt_of_le_of_lt (Int.mul_le_mul_of_nonneg_right (by omega) hs.le) hw
    rw [convx, mulDiv_eq (by omega) hs.le hd, if_pos hfits, ih _ (by omega)]
    rfl

/-- Row `y` of the source, a column for each pixel of the row. -/
theorem stretchRow_eq (src dst : PixelSurface) (para : BlitPara) (sm : Plane) (g : Nat → Int)
    (y : Int) (i w : Nat) (p : Int × Int) (b : Blit) :
    stretchRow src dst para sm y ((List.range' i w).map g) p b =
      blitAll src dst para sm stretchRead (fun r => (g ((r.1 - p.1).toNat + i), y)) (row w p)
        b := by
  induction w generalizing i p b with
  | zero => rfl
  | succ w ih =>
    rw [List.range'_succ, List.map_cons, stretchRow, ih]
    have hfirst : ((p.1 - p.1).toNat + i) = i := by omega
    show _ = blitAll src dst para sm stretchRead _ (row w (p.1 + 1, p.2))
      (blitStep src dst para sm stretchRead (g ((p.1 - p.1).toNat + i), y) p b)
    rw [hfirst]
    refine blitAll_congr (fun r hr => ?_) _
    have hcol := (mem_row.mp hr).2.1
    simp only at hcol
    rw [show (r.1 - p.1).toNat + i = (r.1 - (p.1 + 1)).toNat + (i + 1) by omega]

/-- The pixel of the source for a pixel of the destination: the first one is `d`, for `p`. -/
def scaleBack (sr dr : Rect) (p d r : Int × Int) : Int × Int :=
  ((r.1 - p.1) * sr.w / dr.w + d.1, (r.2 - p.2) * sr.h / dr.h + d.2)

theorem stretchRows_eq (src dst : PixelSurface) (para : BlitPara) (sm : Plane) {sr dr : Rect}
    (hs : sr.Positive) (hd : dr.Positive) (d p0 : Int × Int) (w left y : Nat) {h : Int}
    (hy : (y : Int) + left ≤ h) (hh : h * sr.h < 2 ^ 31) (b : Blit) :
    stretchRows src dst para sm sr.h dr.h d.2
        ((List.range' 0 w).map fun k : Nat => k * sr.w / dr.w + d.1) left y (p0.1, p0.2 + y) b =
      .ok (blitAll src dst para sm stretchRead (scaleBack sr dr p0 d)
        (block w left (p0.1, p0.2 + y)) b) := by
  induction left generalizing y b with
  | zero => rfl
  | succ left ih =>
    have hfits : (y : Int) * sr.h < 2 ^ 31 :=
      lt_of_le_of_lt (Int.mul_le_mul_of_nonneg_right (by omega) hs.h_pos.le) hh
    have hdown : p0.2 + (y : Int) + 1 = p0.2 + ((y + 1 : Nat) : Int) := by omega
    have hrow := stretchRow_eq src dst para sm
      (fun k : Nat => k * sr.w / dr.w + d.1) (y * sr.h / dr.h + d.2) 0 w (p0.1, p0.2 + y) b
    rw [stretchRows, mulDiv_eq (by omega) hs.h_pos.le hd.h_pos, if_pos hfits]
    show stretchRows src dst para sm sr.h dr.h d.2 _ left (y + 1) (p0.1, p0.2 + y + 1) _ = _
    rw [hdown, ih _ (by omega), hrow, block, blitAll_append, hdown]
    congr 2
    refine blitAll_congr (fun r hr => ?_) b
    obtain ⟨hy', hx, -⟩ := mem_row.mp hr
    simp only at hy' hx
    unfold scaleBack
    rw [hy', show p0.2 + (y : Int) - p0.2 = y by omega]
    simp only [Nat.add_zero]
    rw [Int.toNat_of_nonneg (by omega)]

end Loops

/-! ## What is blitted -/

section Parts

variable {src dst : PixelSurface} {para : BlitPara} {sm : Plane} {sr dr dsr ddr c r o : Rect}

theorem amOsdClipRect_eq (h : amOsdClipRect c r = some o) :
    o = c.inter r ∧ 0 < o.w ∧ 0 < o.h := by
  unfold amOsdClipRect at h
  simp only at h
  split at h
  · exact absurd h (Option.some_ne_none _).symm
  · obtain rfl := Option.some.inj h
    exact ⟨rfl, by simp only; omega, by simp only; omega⟩

/-- The whole of a surface. -/
def Surface.rect (s : Surface) : Rect := ⟨0, 0, s.grid.width, s.grid.height⟩

theorem partOf_of_clip (h : amOsdClipRect c r = some o) : o.PartOf r := by
  obtain ⟨rfl, hw, hh⟩ := amOsdClipRect_eq h
  exact ⟨Int.le_max_right .., Int.le_max_right .., hw.le, hh.le⟩

/-- A scaled part begins in the other rectangle, and does not end behind it. -/
theorem scaled_partOf (hs : sr.Positive) (hd : dr.Positive)
    (h1 : amOsdClipRect src.rect sr = some dsr)
    (h2 : amOsdClipRect dst.clip (dsr.scaled sr dr) = some ddr) : ddr.PartOf dr := by
  have hp := partOf_of_clip h1
  have hp' := partOf_of_clip h2
  have hx : 0 ≤ (dsr.x - sr.x) * dr.w / sr.w :=
    Int.ediv_nonneg (Int.mul_nonneg (by have := hp.x_le; omega) hd.w_pos.le) hs.w_pos.le
  have hy : 0 ≤ (dsr.y - sr.y) * dr.h / sr.h :=
    Int.ediv_nonneg (Int.mul_nonneg (by have := hp.y_le; omega) hd.h_pos.le) hs.h_pos.le
  have hx' := hp'.x_le
  have hy' := hp'.y_le
  simp only [Rect.scaled] at hx' hy'
  exact ⟨by omega, by omega, hp'.w_nonneg, hp'.h_nonneg⟩

/-- **The stretching blit**: which products overflow, and which pixels there are. -/
theorem swStretchBlit_eq (hs : sr.Positive) (hd : dr.Positive) (b : Blit) :
    swStretchBlit src dst para sm sr dr b =
      match amOsdClipRect src.rect sr with
      | none => .ok b
      | some dsr =>
        if ScaleFits dsr sr dr then
          match amOsdClipRect dst.clip (dsr.scaled sr dr) with
          | none => .ok b
          | some ddr =>
            if ScaleFits ddr dr sr then
              if ddr.w > maxW then .ok b
              else .ok (blitAll src dst para sm stretchRead
                (scaleBack sr dr (ddr.x, ddr.y) ((ddr.scaled dr sr).x, (ddr.scaled dr sr).y))
                (block ddr.w.toNat ddr.h.toNat (ddr.x, ddr.y)) b)
            else .error .overflow
        else .error .overflow := by
  unfold swStretchBlit
  change (match amOsdClipRect src.rect sr with | none => _ | some dsr => _) = _
  cases h1 : amOsdClipRect src.rect sr with
  | none => rfl
  | some dsr =>
    simp only
    rw [scaleRect_eq (partOf_of_clip h1) hs hd]
    by_cases hf : ScaleFits dsr sr dr
    · rw [if_pos hf, if_pos hf]
      show (match amOsdClipRect dst.clip (dsr.scaled sr dr) with | none => _ | some ddr => _) = _
      cases h2 : amOsdClipRect dst.clip (dsr.scaled sr dr) with
      | none => rfl
      | some ddr =>
        have hp := scaled_partOf hs hd h1 h2
        simp only
        rw [scaleRect_eq hp hd hs]
        by_cases hf' : ScaleFits ddr dr sr
        · rw [if_pos hf', if_pos hf']
          show (if ddr.w > maxW then _ else _) = _
          by_cases hw : ddr.w > maxW
          · rw [if_pos hw, if_pos hw]
            rfl
          · have hxs := convx_eq hs.w_pos hd.w_pos (ddr.scaled dr sr).x 0 ddr.w.toNat
              (w := ddr.w) (by have := hp.w_nonneg; omega) hf'.2.2.1
            have hrows := stretchRows_eq src dst para sm hs hd
              ((ddr.scaled dr sr).x, (ddr.scaled dr sr).y) (ddr.x, ddr.y) ddr.w.toNat ddr.h.toNat 0
              (h := ddr.h) (by have := hp.h_nonneg; omega) hf'.2.2.2 b
            simp only [Int.natCast_zero, Int.add_zero] at hrows
            rw [if_neg hw, if_neg hw, hxs]
            exact hrows
        · rw [if_neg hf', if_neg hf']
          rfl
    · rw [if_neg hf, if_neg hf]
      rfl

/-- The part of a rectangle, in a rectangle of the same size. -/
def Rect.moved (r u v : Rect) : Rect := ⟨r.x + v.x - u.x, r.y + v.y - u.y, r.w, r.h⟩

/-- **The blit without stretching**: the pixels are those of the stretching one for equal sizes,
and rows are copied as they are or pixel by pixel. -/
theorem swNormalBlit_eq (src dst : PixelSurface) (para : BlitPara) (sm : Plane) (sr dr : Rect)
    (b : Blit) :
    swNormalBlit src dst para sm sr dr b =
      match amOsdClipRect src.rect sr with
      | none => b
      | some dsr =>
        match amOsdClipRect dst.clip (dsr.moved sr dr) with
        | none => b
        | some ddr =>
          if PlainCopy src dst para then
            copyRows src dst sm ddr.w.toNat ddr.h.toNat
              (translate (sr.x - dr.x, sr.y - dr.y) (ddr.x, ddr.y)) (ddr.x, ddr.y) b
          else
            blitAll src dst para sm pixValue (translate (sr.x - dr.x, sr.y - dr.y))
              (block ddr.w.toNat ddr.h.toNat (ddr.x, ddr.y)) b := by
  have hq : ∀ ddr : Rect, (ddr.x + sr.x - dr.x, ddr.y + sr.y - dr.y) =
      translate (sr.x - dr.x, sr.y - dr.y) (ddr.x, ddr.y) := fun ddr =>
    Prod.ext (Int.add_sub_assoc ..) (Int.add_sub_assoc ..)
  simp only [swNormalBlit, hq, pixelRows_eq]
  rfl

end Parts

/-! ## Where they read and store -/

section Inside

variable {src dst : PixelSurface} {para : BlitPara} {sm m : Plane} {sr dr dsr ddr : Rect}

/-- What is read is of the source and of its rectangle, what is stored to is of the destination,
of its clip rectangle and of its rectangle. -/
structure StaysInside (src dst : PixelSurface) (sr dr : Rect) (b : Blit) : Prop where
  reads : ∀ q ∈ b.reads, src.grid.Has q ∧ sr.Has q
  writes : ∀ p ∈ b.writes, dst.grid.Has p ∧ dst.clip.Has p ∧ dr.Has p

/-- The blit ends without a trap, and stays inside. -/
def BlitsInside (src dst : PixelSurface) (para : BlitPara) (sm m : Plane) (sr dr : Rect) : Prop :=
  ∃ b, swBlit src dst para sm sr dr ⟨m, [], []⟩ = .ok b ∧ StaysInside src dst sr dr b

/-- The sizes are the same, or the first column and the first row that are drawn scale back
to a column and a row of the source that are in the surface. -/
def ScalesInside (src dst : PixelSurface) (sr dr : Rect) : Prop :=
  (sr.w = dr.w ∧ sr.h = dr.h) ∨
    ∀ dsr ∈ amOsdClipRect src.rect sr, ∀ ddr ∈ amOsdClipRect dst.clip (dsr.scaled sr dr),
      ddr.w ≤ maxW → (dsr.x - sr.x) * dr.w ≤ (ddr.x - dr.x) * sr.w ∧
        (dsr.y - sr.y) * dr.h ≤ (ddr.y - dr.y) * sr.h

instance (src dst : PixelSurface) (sr dr : Rect) : Decidable (ScalesInside src dst sr dr) :=
  inferInstanceAs (Decidable ((_ ∧ _) ∨ ∀ dsr ∈ amOsdClipRect src.rect sr,
    ∀ ddr ∈ amOsdClipRect dst.clip (dsr.scaled sr dr), ddr.w ≤ maxW → _ ∧ _))

theorem staysInside_nothing (m : Plane) : StaysInside src dst sr dr ⟨m, [], []⟩ :=
  ⟨fun _ h => absurd h List.not_mem_nil, fun _ h => absurd h List.not_mem_nil⟩

/-- The two scalings do not get behind the end of a part of `n` from `o` on. -/
theorem scale_lt {o n a i s d : Int} (hs : 0 < s) (hd : 0 < d)
    (h : i + a < o * d / s + n * d / s) : i * s / d + a * s / d < o + n := by
  have ho : o * d / s * s ≤ o * d := Int.ediv_mul_le _ hs.ne'
  have hn : n * d / s * s ≤ n * d := Int.ediv_mul_le _ hs.ne'
  have hia : (i + a + 1) * s ≤ (o * d / s + n * d / s) * s :=
    Int.mul_le_mul_of_nonneg_right (by omega) hs.le
  have hlt : (i * s + a * s) / d < o + n := by
    refine Int.ediv_lt_of_lt_mul hd ?_
    rw [Int.add_mul, Int.add_mul, Int.add_mul, Int.one_mul] at hia
    rw [Int.add_mul]
    omega
  exact lt_of_le_of_lt (Int.ediv_add_ediv_le_add_ediv hd) hlt

/-- A scaled part has its place. -/
theorem scaled_le {o n s d : Int} (hs : 0 < s) (hd : 0 < d) (h : o + n ≤ s) :
    o * d / s + n * d / s ≤ d := by
  have ho : o * d / s * s ≤ o * d := Int.ediv_mul_le _ hs.ne'
  have hn : n * d / s * s ≤ n * d := Int.ediv_mul_le _ hs.ne'
  have hsum : (o + n) * d ≤ s * d := Int.mul_le_mul_of_nonneg_right h hd.le
  refine Int.le_of_mul_le_mul_right (a := s) ?_ hs
  rw [Int.add_mul] at hsum ⊢
  rw [Int.mul_comm d s]
  omega

/-- One axis: a source of `s` from `s0` on in `W`, a destination of `d` from `d0` on and a clip
of `c` from `c0` on. What is drawn from `D` on is inside; what is read too, where the first of it
scales back to `X` at least. -/
theorem axis_inside {W s0 s d0 d c0 c X n D E p : Int} (hs : 0 < s) (hd : 0 < d)
    (hX : X = max 0 s0) (hn : n = min W (s0 + s) - X)
    (hD : D = max c0 ((X - s0) * d / s + d0))
    (hE : E = min (c0 + c) ((X - s0) * d / s + d0 + n * d / s)) (hp : D ≤ p) (hp' : p < E) :
    (c0 ≤ p ∧ p < c0 + c) ∧ (d0 ≤ p ∧ p < d0 + d) ∧
      s0 ≤ (p - D) * s / d + ((D - d0) * s / d + s0) ∧
      (p - D) * s / d + ((D - d0) * s / d + s0) < min W (s0 + s) ∧
      ((X - s0) * d ≤ (D - d0) * s → 0 ≤ (p - D) * s / d + ((D - d0) * s / d + s0)) := by
  have hfirst : 0 ≤ (X - s0) * d / s :=
    Int.ediv_nonneg (Int.mul_nonneg (by omega) hd.le) hs.le
  have hplace := scaled_le (o := X - s0) (n := n) hs hd (by omega)
  have hlast := scale_lt (o := X - s0) (n := n) (a := D - d0) (i := p - D) hs hd (by omega)
  have hi : 0 ≤ (p - D) * s / d := Int.ediv_nonneg (Int.mul_nonneg (by omega) hs.le) hd.le
  have ha : 0 ≤ (D - d0) * s / d := Int.ediv_nonneg (Int.mul_nonneg (by omega) hs.le) hd.le
  refine ⟨⟨by omega, by omega⟩, ⟨by omega, by omega⟩, by omega, by omega, fun h => ?_⟩
  have hback := (Int.le_ediv_iff_mul_le hd).mpr h
  omega

/-- What is read first, in one axis. -/
theorem axis_first {s0 s d0 d X D : Int} (hs : 0 < s) (hd : 0 < d) (hX : X = max 0 s0)
    (hD : d0 ≤ D) (h : 0 ≤ (D - D) * s / d + ((D - d0) * s / d + s0)) :
    (X - s0) * d ≤ (D - d0) * s := by
  have hback : 0 ≤ (D - d0) * s / d := Int.ediv_nonneg (Int.mul_nonneg (by omega) hs.le) hd.le
  rw [Int.sub_self, Int.zero_mul, Int.zero_ediv] at h
  exact (Int.le_ediv_iff_mul_le hd).mp (by omega)

theorem mem_block_rect {r : Rect} {p : Int × Int} :
    p ∈ block r.w.toNat r.h.toNat (r.x, r.y) ↔ r.Has p := by
  rw [mem_block]
  simp only [Rect.Has]
  omega

/-- Pixels of the destination and those of the source for them, all of them inside. -/
theorem staysInside_of {f : Int × Int → Int × Int} {b : Blit} (hclip : dst.Holds dst.clip)
    (hreads : b.reads = (block ddr.w.toNat ddr.h.toNat (ddr.x, ddr.y)).map f)
    (hwrites : ∀ p ∈ b.writes, ddr.Has p)
    (hin : ∀ p, ddr.Has p → dst.clip.Has p ∧ dr.Has p ∧ src.grid.Has (f p) ∧ sr.Has (f p)) :
    StaysInside src dst sr dr b where
  reads q hq := by
    rw [hreads] at hq
    obtain ⟨p, hp, rfl⟩ := List.mem_map.mp hq
    exact (hin p (mem_block_rect.mp hp)).2.2
  writes p hp := by
    obtain ⟨hc, hd, -⟩ := hin p (hwrites p hp)
    exact ⟨holds_iff.mp hclip p hc, hc, hd⟩

/-- Without stretching nothing goes wrong. -/
theorem swNormalBlit_inside (hclip : dst.Holds dst.clip) (hw : sr.w = dr.w) (hh : sr.h = dr.h) :
    StaysInside src dst sr dr (swNormalBlit src dst para sm sr dr ⟨m, [], []⟩) := by
  rw [swNormalBlit_eq]
  cases h1 : amOsdClipRect src.rect sr with
  | none => exact staysInside_nothing m
  | some dsr =>
    simp only
    cases h2 : amOsdClipRect dst.clip (dsr.moved sr dr) with
    | none => exact staysInside_nothing m
    | some ddr =>
      simp only
      have hin : ∀ p, ddr.Has p → dst.clip.Has p ∧ dr.Has p ∧
          src.grid.Has (translate (sr.x - dr.x, sr.y - dr.y) p) ∧
            sr.Has (translate (sr.x - dr.x, sr.y - dr.y) p) := by
        intro p hp
        obtain ⟨hc, hm⟩ := (amOsdClipRect_some h2).2.2 p |>.mp hp
        have hq : dsr.Has (translate (sr.x - dr.x, sr.y - dr.y) p) := by
          simp only [Rect.Has, Rect.moved, translate] at hm ⊢
          omega
        obtain ⟨hsurf, hsr⟩ := (amOsdClipRect_some h1).2.2 _ |>.mp hq
        refine ⟨hc, ?_, ?_, hsr⟩
        · simp only [Rect.Has, translate] at hsr ⊢
          omega
        · simp only [Rect.Has, Surface.rect, Grid.Has] at hsurf ⊢
          omega
      split
      · refine staysInside_of hclip ?_ (fun p hp => ?_) hin
        · rw [copyRows_reads, block_translate, List.nil_append]
        · rw [copyRows_writes, List.nil_append] at hp
          exact mem_block_rect.mp hp
      · refine staysInside_of hclip ?_ (fun p hp => ?_) hin
        · rw [blitAll_reads, List.nil_append]
        · exact mem_block_rect.mp ((blitAll_writes hp).resolve_left List.not_mem_nil)

/-- What the stretching blit reads and stores to, and when it reads inside the source. -/
theorem stretch_inside_iff (para : BlitPara) (sm m : Plane) (hs : sr.Positive) (hd : dr.Positive)
    (hclip : dst.Holds dst.clip)
    (h1 : amOsdClipRect src.rect sr = some dsr)
    (h2 : amOsdClipRect dst.clip (dsr.scaled sr dr) = some ddr) :
    StaysInside src dst sr dr (blitAll src dst para sm stretchRead
        (scaleBack sr dr (ddr.x, ddr.y) ((ddr.scaled dr sr).x, (ddr.scaled dr sr).y))
        (block ddr.w.toNat ddr.h.toNat (ddr.x, ddr.y)) ⟨m, [], []⟩) ↔
      (dsr.x - sr.x) * dr.w ≤ (ddr.x - dr.x) * sr.w ∧
        (dsr.y - sr.y) * dr.h ≤ (ddr.y - dr.y) * sr.h := by
  have hpart := scaled_partOf hs hd h1 h2
  obtain ⟨rfl, -, -⟩ := amOsdClipRect_eq h1
  obtain ⟨hdeq, hw, hh⟩ := amOsdClipRect_eq h2
  have hx : ddr.x = max dst.clip.x ((max 0 sr.x - sr.x) * dr.w / sr.w + dr.x) := by rw [hdeq]; rfl
  have hy : ddr.y = max dst.clip.y ((max 0 sr.y - sr.y) * dr.h / sr.h + dr.y) := by rw [hdeq]; rfl
  have hxw : ddr.x + ddr.w = min (dst.clip.x + dst.clip.w) ((max 0 sr.x - sr.x) * dr.w / sr.w +
      dr.x + (min (0 + src.grid.width) (sr.x + sr.w) - max 0 sr.x) * dr.w / sr.w) := by
    rw [hdeq]
    exact add_sub_cancel _ _
  have hyh : ddr.y + ddr.h = min (dst.clip.y + dst.clip.h) ((max 0 sr.y - sr.y) * dr.h / sr.h +
      dr.y + (min (0 + src.grid.height) (sr.y + sr.h) - max 0 sr.y) * dr.h / sr.h) := by
    rw [hdeq]
    exact add_sub_cancel _ _
  rw [Int.zero_add] at hxw hyh
  constructor
  · -- the first pixel is read
    intro h
    have hfirst : (ddr.x, ddr.y) ∈ block ddr.w.toNat ddr.h.toNat (ddr.x, ddr.y) :=
      mem_block_rect.mpr (by simp only [Rect.Has]; omega)
    have hread := (h.reads (scaleBack sr dr (ddr.x, ddr.y)
      ((ddr.scaled dr sr).x, (ddr.scaled dr sr).y) (ddr.x, ddr.y)) (by
        rw [blitAll_reads, List.nil_append]
        exact List.mem_map_of_mem hfirst)).1
    exact ⟨axis_first hs.w_pos hd.w_pos rfl hpart.x_le hread.1,
      axis_first hs.h_pos hd.h_pos rfl hpart.y_le hread.2.2.1⟩
  · rintro ⟨hfx, hfy⟩
    refine staysInside_of hclip (by rw [blitAll_reads, List.nil_append])
      (fun p hp => mem_block_rect.mp ((blitAll_writes hp).resolve_left List.not_mem_nil))
      fun p hp => ?_
    obtain ⟨⟨hpx, hpx'⟩, hpy, hpy'⟩ := hp
    obtain ⟨hcx, hdx, hlx, hux, h0x⟩ :=
      axis_inside hs.w_pos hd.w_pos rfl rfl hx hxw hpx hpx'
    obtain ⟨hcy, hdy, hly, huy, h0y⟩ :=
      axis_inside hs.h_pos hd.h_pos rfl rfl hy hyh hpy hpy'
    exact ⟨⟨hcx, hcy⟩, ⟨hdx, hdy⟩,
      ⟨h0x hfx, lt_of_lt_of_le hux (Int.min_le_left ..), h0y hfy,
        lt_of_lt_of_le huy (Int.min_le_left ..)⟩,
      ⟨hlx, lt_of_lt_of_le hux (Int.min_le_right ..)⟩, hly,
        lt_of_lt_of_le huy (Int.min_le_right ..)⟩

/-- **Blits stay inside**: a blit whose products are `int`s ends without a trap, reads in both the
source and its rectangle and stores in the destination, its clip rectangle and its rectangle just
when the first column and row that are drawn scale back into the source. -/
theorem blit_inside_iff (hs : sr.Positive) (hd : dr.Positive) (hclip : dst.Holds dst.clip)
    (hover : swBlit src dst para sm sr dr ⟨m, [], []⟩ ≠ .error .overflow) :
    BlitsInside src dst para sm m sr dr ↔ ScalesInside src dst sr dr := by
  unfold BlitsInside ScalesInside
  by_cases hsize : sr.w = dr.w ∧ sr.h = dr.h
  · have hblit : swBlit src dst para sm sr dr ⟨m, [], []⟩ =
        .ok (swNormalBlit src dst para sm sr dr ⟨m, [], []⟩) := if_pos hsize
    exact iff_of_true ⟨_, hblit, swNormalBlit_inside hclip hsize.1 hsize.2⟩ (.inl hsize)
  rw [or_iff_right hsize]
  have hblit : swBlit src dst para sm sr dr ⟨m, [], []⟩ =
      swStretchBlit src dst para sm sr dr ⟨m, [], []⟩ := if_neg hsize
  rw [hblit, swStretchBlit_eq hs hd] at hover ⊢
  have hnothing : ∃ b : Blit, (Except.ok ⟨m, [], []⟩ : Except Trap Blit) = .ok b ∧
      StaysInside src dst sr dr b := ⟨_, rfl, staysInside_nothing m⟩
  cases h1 : amOsdClipRect src.rect sr with
  | none => exact iff_of_true hnothing fun dsr h => absurd h (Option.not_mem_none _)
  | some dsr =>
    rw [h1] at hover
    simp only at hover ⊢
    simp only [Option.mem_some_iff, forall_eq']
    by_cases hf : ScaleFits dsr sr dr
    · rw [if_pos hf] at hover ⊢
      cases h2 : amOsdClipRect dst.clip (dsr.scaled sr dr) with
      | none => exact iff_of_true hnothing fun ddr h => absurd h (Option.not_mem_none _)
      | some ddr =>
        rw [h2] at hover
        simp only at hover ⊢
        simp only [Option.mem_some_iff, forall_eq']
        by_cases hf' : ScaleFits ddr dr sr
        · rw [if_pos hf']
          by_cases hmax : ddr.w > maxW
          · rw [if_pos hmax]
            exact iff_of_true hnothing fun h => absurd h (by omega)
          · rw [if_neg hmax, ← stretch_inside_iff para sm m hs hd hclip h1 h2]
            constructor
            · rintro ⟨b, hb, hin⟩ -
              exact Except.ok.inj hb ▸ hin
            · exact fun h => ⟨_, rfl, h (by omega)⟩
        · exact absurd (if_neg hf') hover
    · exact absurd (if_neg hf) hover

/-- Four rows of four palette pixels. -/
def exampleSquare : PixelSurface where
  grid := ⟨4, 4, 4, 1⟩
  clip := ⟨0, 0, 4, 4⟩
  type := .palette256
  colors := []
  bpp_eq := rfl

/-- Doubled, with the left half of the source not in its surface. -/
theorem blit_inside_doubled :
    BlitsInside exampleSquare exampleSquare ⟨false, false, 0⟩ (fun _ => 0) (fun _ => 0)
      ⟨-1, 0, 2, 1⟩ ⟨0, 0, 4, 2⟩ :=
  (blit_inside_iff ⟨by decide, by decide⟩ ⟨by decide, by decide⟩ (by decide) (fun h => by
    cases h)).mpr (by decide)

/-- Half as wide again: the one column that is drawn scales back to the one left of the surface. -/
theorem blit_not_inside_wider :
    ¬ ∀ (src dst : PixelSurface) (para : BlitPara) (sm m : Plane) (sr dr : Rect),
      sr.Positive → dr.Positive → dst.Holds dst.clip →
      swBlit src dst para sm sr dr ⟨m, [], []⟩ ≠ .error .overflow →
      BlitsInside src dst para sm m sr dr := by
  intro h
  obtain ⟨b, hb, hin⟩ := h exampleSquare exampleSquare ⟨false, false, 0⟩ (fun _ => 0) (fun _ => 0)
    ⟨-1, 0, 2, 1⟩ ⟨0, 0, 3, 1⟩ ⟨by decide, by decide⟩ ⟨by decide, by decide⟩ (by decide)
    (fun h => by cases h)
  have hreads : (swBlit exampleSquare exampleSquare ⟨false, false, 0⟩ (fun _ => 0)
      ⟨-1, 0, 2, 1⟩ ⟨0, 0, 3, 1⟩ ⟨fun _ => 0, [], []⟩).map Blit.reads = .ok [(-1, 0)] := rfl
  rw [hb] at hreads
  have hread := (hin.reads (-1, 0) (Except.ok.inj hreads ▸ List.mem_cons_self)).1
  exact absurd hread (by decide)

end Inside

end VendorAmlogic.Osd
