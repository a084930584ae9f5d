import VendorAmlogic.Amsub.VobPixels

/-!
# The picture of a DVD subtitle

`parser_inter_spu`, `fill_resize_data` and `amsub_vob_reset_data` of
`libsub_vob/amsub_vob_dec.c`: two fields of packed pixels become rows of colours,
and these are cut and go back into `amsub_data`. A picture is its words of 32 bits.
-/

namespace VendorAmlogic.Amsub.Vob

open VendorAmlogic.Lib

abbrev Rgba := BitVec 32

abbrev Words := Nat → Rgba

/-! ## Model -/

/-- `rgba_enable` and the colours. -/
structure Colors where
  enable : Bool
  background : Rgba
  pattern1 : Rgba
  pattern2 : Rgba
  pattern3 : Rgba

/-- An entry of the palette, with its contrast. -/
def entryColor (palette : Nat → Rgba) (color contrast : Nat) : Rgba :=
  palette color &&& 0x00ffffff ||| BitVec.ofNat 32 (contrast * 17) <<< 24

/-- What `get_vob_spu` sets, if there is a palette. -/
def setColors (palette : Option (Nat → Rgba)) (s : Spu) (c : Colors) : Colors :=
  match palette with
  | none => c
  | some p =>
    let entry (i : Nat) := entryColor p (s.color / 16 ^ i % 16) (s.alpha / 16 ^ i % 16)
    ⟨true, entry 0, entry 1, entry 2, entry 3⟩

/-- `RGBA_Pal`. -/
def rgbaPal (c : Colors) (alpha : Nat) : List Rgba :=
  if c.enable then [c.background, c.pattern1, c.pattern2, c.pattern3]
  else if alpha &&& 0xf000 ≠ 0 ∧ alpha &&& 0x0f00 ≠ 0 ∧ alpha &&& 0x00f0 ≠ 0 then
    [0, 0xffffffff, 0xff000000, 0xff000000]
  else if alpha = 0xfe0 then [0, 0xffffffff, 0xff000000, 0]
  else [0, 0xffffffff, 0, 0xff000000]

def palAt (pal : List Rgba) (v : Nat) : Rgba := pal.getD v 0

/-- `(n + 63) & 0xffffffc0`. -/
def align64 (n : Nat) : Nat := (n + 63) / 64 * 64

/-- `get_amsub_size`, for `SUBTITLE_VOB`. -/
def getAmsubSize (s : Spu) : Nat :=
  if s.width * s.height = 0 then 0 else align64 s.width * s.height

/-- `result_buf` and the edges that `parser_inter_spu` keeps; no start is `-1`. -/
structure Scan where
  result : Words
  xStart : Nat
  xEnd : Nat
  startHeight : Option Nat
  endHeight : Nat

namespace Scan

def paint (k : Nat) (c : Rgba) (s : Scan) : Scan :=
  { s with result := Function.update s.result k c }

/-- The edges, at a byte of row `i`. -/
def touch (i j : Nat) (s : Scan) : Scan :=
  { s with
    startHeight := some (s.startHeight.getD i)
    endHeight := i
    xStart := min s.xStart j }

/-- The inner loop: a byte of `data` is four pixels of row `i`, unless the row ends. -/
def row (pal : List Rgba) (data : Nat → Nat) (w base i : Nat) (j index : Nat) (s : Scan) : Scan :=
  if j < w then
    let n := data (otherByte index)
    let s := (s.touch i j).paint (base + j) (palAt pal (n / 64 % 4))
    if j + 1 ≥ w then s
    else
      let s := s.paint (base + (j + 1)) (palAt pal (n / 16 % 4))
      if j + 2 ≥ w then s
      else
        let s := s.paint (base + (j + 2)) (palAt pal (n / 4 % 4))
        if j + 3 ≥ w then s
        else
          let s := s.paint (base + (j + 3)) (palAt pal (n % 4))
          Scan.row pal data w base i (j + 4) (index + 1) { s with xEnd := max s.xEnd (j + 3) }
  else s
termination_by w - j

/-- `data_byte`. -/
def dataByte (w : Nat) : Nat := (w * 2 + 15) / 16 * 2

/-- The bytes of row `i`; the odd rows are in the second half. -/
def rowData (bytes : Nat → Nat) (w i : Nat) (k : Nat) : Nat :=
  bytes (i / 2 * dataByte w + (if i % 2 = 1 then vobSubSize / 2 else 0) + k)

/-- So many rows, from row `i` on. -/
def rows (pal : List Rgba) (bytes : Nat → Nat) (w : Nat) : Nat → Nat → Scan → Scan
  | 0, _, s => s
  | n + 1, i, s =>
    rows pal bytes w n (i + 1) (s.row pal (rowData bytes w i) w (i * align64 w) i 0 0)

end Scan

/-- `parser_inter_spu`. -/
def parserInterSpu (pal : List Rgba) (bytes : Nat → Nat) (s : Spu) : Scan :=
  Scan.rows pal bytes s.width s.height 0 ⟨fun _ => 0, s.width, 0, none, 0⟩

/-- The `resize_` fields. -/
structure Resize where
  xStart : Nat
  yStart : Nat
  width : Nat
  height : Nat

def Scan.resize (s : Scan) : Resize where
  xStart := s.xStart
  yStart := s.startHeight.getD 0
  width := align64 (s.xEnd - s.xStart + 1)
  height := s.endHeight - s.startHeight.getD 0 + 1

def Resize.size (r : Resize) : Nat := r.height * r.width

/-- `memcpy` of so many words. -/
def copyWords (dst : Words) (o : Nat) (src : Words) (p n : Nat) : Words :=
  fun k => if o ≤ k ∧ k < o + n then src (p + (k - o)) else dst k

/-- The rows of `fill_resize_data`. -/
def copyRows (r : Resize) (stride : Nat) (src : Words) : Nat → Words → Words
  | 0, dst => dst
  | n + 1, dst =>
    copyWords (copyRows r stride src n dst) (r.width * n) src
      (stride * r.yStart + stride * n + r.xStart) r.width

/-- `fill_resize_data`, on what `malloc` has left in `dst`. -/
def fillResizeData (s : Spu) (r : Resize) (dst src : Words) : Words :=
  if r.size = getAmsubSize s then copyWords dst 0 src 0 r.size
  else copyRows r (align64 s.width) src r.height dst

/-- `amsub_data`, `spu_width` and `spu_height` behind `amsub_vob_reset_data`. -/
structure Picture where
  words : Words
  width : Nat
  height : Nat

/-- `amsub_vob_reset_data`: nothing if it writes behind `amsub_data`, and no picture if it
returns `-1`. -/
def amsubVobResetData (bytes : Nat → Nat) (s : Spu) (pal : List Rgba) (heap : Words) :
    Option (Option Picture) :=
  if getAmsubSize s = 0 then some none
  else
    let scan := parserInterSpu pal bytes s
    let r := scan.resize
    if r.size * 4 ≤ vobSubSize then
      some (some ⟨copyWords (fun _ => 0) 0 (fillResizeData s r heap scan.result) 0 r.size,
        r.width, r.height⟩)
    else none

/-! ## The rest of `get_vob_spu` -/

/-- `amsub_para_s` before the first packet. -/
def Spu.cleared : Spu where
  pts := 0
  mDelay := 0
  cmdOffset := 0
  color := 0
  alpha := 0
  startX := 0
  startY := 0
  width := 0
  height := 0
  top := 0
  bottom := 0
  displayPending := 0
  width_le := Nat.zero_le _
  height_le := Nat.zero_le _

/-- The contrast behind the second field. -/
def Spu.background (s : Spu) : Spu :=
  let change := changeData s.alpha
  if change ≠ 0 then
    { s with alpha := Fin.ofNat _ ((s.alpha : Nat) &&& 0xFFF0 ||| 0x000F <<< (change <<< 2)) }
  else s

/-- `amsub_data` and the other fields behind `get_vob_spu`. -/
structure Decoded where
  bytes : Nat → Nat
  spu : Spu
  colors : Colors

/-- Two fields in `amsub_data`. -/
def fieldBytes (odd even : Nat → Nat) (k : Nat) : Nat :=
  if k < vobSubSize / 2 then wordByte odd k else wordByte even (k - vobSubSize / 2)

/-- What `get_vob_spu` does with a packet of `length` bytes in `amsub_data`. -/
def decodeFrame (palette : Option (Nat → Rgba)) (data : Mem) (length : Nat) (s : Spu) (c : Colors) :
    Option Decoded :=
  (getSpuCmd (data.read 0 length) s).bind fun r =>
    let s := r.1
    (spuFillPixel data s.top s).bind fun odd =>
      (spuFillPixel data s.bottom s).map fun even =>
        ⟨fieldBytes odd even, s.background, setColors palette s c⟩

/-- `get_vob_spu` on a packet, and `amsub_vob_reset_data`. -/
def decodeAndReset (palette : Option (Nat → Rgba)) (data : Mem) (length : Nat) (s : Spu)
    (c : Colors) (heap : Words) : Option (Option Picture) :=
  (decodeFrame palette data length s c).bind fun d =>
    amsubVobResetData d.bytes d.spu (rgbaPal d.colors d.spu.alpha) heap

/-! ## One row -/

/-- Pixel `x` of a row. -/
def rowColor (pal : List Rgba) (data : Nat → Nat) (x : Nat) : Rgba :=
  palAt pal (data (otherByte (x / 4)) / 4 ^ (3 - x % 4) % 4)

/-- From `a` to `b` it is `f`, and as before elsewhere. -/
def Covers (f : Words) (a b : Nat) (r r' : Words) : Prop :=
  ∀ k, r' k = if a ≤ k ∧ k < b then f k else r k

section
variable {pal : List Rgba} {data bytes : Nat → Nat} {w base i j index n x y a b c : Nat} {s : Scan}
  {s' : Spu}   {f r r' r'' : Words}

theorem Covers.refl (h : b ≤ a) : Covers f a b r r := fun k => (if_neg (by omega)).symm

theorem Covers.paint {v : Rgba} (hv : v = f a) :
    Covers f a (a + 1) s.result (s.paint a v).result := by
  intro k
  change Function.update s.result a v k = _
  by_cases hk : k = a
  · rw [hk, Function.update_self, if_pos ⟨Nat.le_refl _, Nat.lt_succ_self _⟩, hv]
  · rw [Function.update_of_ne hk, if_neg (by omega)]

theorem Covers.trans (h : Covers f a b r r') (h' : Covers f b c r' r'') (hab : a ≤ b)
    (hbc : b ≤ c) : Covers f a c r r'' := by
  intro k
  rw [h', h]
  by_cases hk : k < b
  · rw [if_neg (show ¬ (b ≤ k ∧ k < c) by omega)]
    exact if_congr (by omega) rfl rfl
  · rw [if_neg (show ¬ (a ≤ k ∧ k < b) by omega)]
    exact if_congr (by omega) rfl rfl

/-- One of the four pixels of a byte. -/
theorem paint_covers (s : Scan) {t v : Nat} (hj : j = 4 * index) (ht : t < 4)
    (hv : v = data (otherByte index) / 4 ^ (3 - t) % 4) :
    Covers (fun k => rowColor pal data (k - base)) (base + (j + t)) (base + (j + t + 1)) s.result
      (s.paint (base + (j + t)) (palAt pal v)).result := by
  refine Covers.paint ?_
  rw [rowColor, Nat.add_sub_cancel_left, show (j + t) / 4 = index by omega,
    show (j + t) % 4 = t by omega, hv]

/-- **A row** is the pixels of its bytes. -/
theorem row_covers (pal : List Rgba) (data : Nat → Nat) (w base i : Nat) (s : Scan)
    (hj : j = 4 * index) :
    Covers (fun k => rowColor pal data (k - base)) (base + j) (base + w) s.result
      (s.row pal data w base i j index).result := by
  induction j, index, s using Scan.row.induct pal data w base i with
  | case1 j index s hlt h1 =>
    rw [Scan.row, if_pos hlt]
    dsimp only
    rw [if_pos h1]
    obtain rfl : w = j + 1 := by omega
    exact paint_covers _ hj (t := 0) (by decide) rfl
  | case2 j index s hlt h1 h2 =>
    rw [Scan.row, if_pos hlt]
    dsimp only
    rw [if_neg h1, if_pos h2]
    obtain rfl : w = j + 1 + 1 := by omega
    exact (paint_covers _ hj (t := 0) (by decide) rfl).trans
      (paint_covers _ hj (t := 1) (by decide) rfl) (by omega) (by omega)
  | case3 j index s hlt h1 h2 h3 =>
    rw [Scan.row, if_pos hlt]
    dsimp only
    rw [if_neg h1, if_neg h2, if_pos h3]
    obtain rfl : w = j + 2 + 1 := by omega
    exact ((paint_covers _ hj (t := 0) (by decide) rfl).trans
      (paint_covers _ hj (t := 1) (by decide) rfl) (by omega) (by omega)).trans
      (paint_covers _ hj (t := 2) (by decide) rfl) (by omega) (by omega)
  | case4 j index s hlt n s1 h1 s2 h2 s3 h3 s4 ih =>
    rw [Scan.row, if_pos hlt]
    dsimp only
    rw [if_neg h1, if_neg h2, if_neg h3]
    have hfirst : Covers (fun k => rowColor pal data (k - base)) (base + j) (base + (j + 3))
        s.result s3.result :=
      ((paint_covers _ hj (t := 0) (by decide) rfl).trans
        (paint_covers _ hj (t := 1) (by decide) rfl) (by omega) (by omega)).trans
        (paint_covers _ hj (t := 2) (by decide) rfl) (by omega) (by omega)
    have hlast : Covers (fun k => rowColor pal data (k - base)) (base + (j + 3)) (base + (j + 4))
        s3.result s4.result :=
      paint_covers _ hj (t := 3) (by decide) (congrArg (· % 4) (Nat.div_one n).symm)
    exact (hfirst.trans hlast (by omega) (by omega)).trans (ih (by omega)) (by omega) (by omega)
  | case5 j index s hlt =>
    rw [Scan.row, if_neg hlt]
    exact Covers.refl (by omega)

/-- The edges behind a row: the right one is that of the last byte that is full. -/
theorem row_edges (pal : List Rgba) (data : Nat → Nat) (base i : Nat) (s : Scan)
    (hj : j = 4 * index) (hlt : j < w) :
    (s.row pal data w base i j index).xStart = min s.xStart j ∧
    (s.row pal data w base i j index).startHeight = some (s.startHeight.getD i) ∧
    (s.row pal data w base i j index).endHeight = i ∧
    (s.row pal data w base i j index).xEnd =
      if j + 4 ≤ w then max s.xEnd (w / 4 * 4 - 1) else s.xEnd := by
  induction j, index, s using Scan.row.induct pal data w base i with
  | case1 j index s _ h1 =>
    rw [Scan.row, if_pos hlt]
    dsimp only
    rw [if_pos h1, if_neg (by omega)]
    exact ⟨rfl, rfl, rfl, rfl⟩
  | case2 j index s _ h1 h2 =>
    rw [Scan.row, if_pos hlt]
    dsimp only
    rw [if_neg h1, if_pos h2, if_neg (by omega)]
    exact ⟨rfl, rfl, rfl, rfl⟩
  | case3 j index s _ h1 h2 h3 =>
    rw [Scan.row, if_pos hlt]
    dsimp only
    rw [if_neg h1, if_neg h2, if_pos h3, if_neg (by omega)]
    exact ⟨rfl, rfl, rfl, rfl⟩
  | case4 j index s _ n s1 h1 s2 h2 s3 h3 s4 ih =>
    rw [Scan.row, if_pos hlt]
    dsimp only
    rw [if_neg h1, if_neg h2, if_neg h3, if_pos (by omega)]
    have hs4 : s4.xStart = min s.xStart j ∧ s4.startHeight = some (s.startHeight.getD i) ∧
        s4.endHeight = i ∧ s4.xEnd = s.xEnd := ⟨rfl, rfl, rfl, rfl⟩
    by_cases hmore : j + 4 < w
    · obtain ⟨hx, hst, hen, hxe⟩ := ih (by omega) hmore
      refine ⟨hx.trans ?_, hst.trans ?_, hen, hxe.trans ?_⟩
      · dsimp only
        omega
      · dsimp only
        rw [hs4.2.1]
        rfl
      · dsimp only
        split <;> omega
    · rw [Scan.row, if_neg hmore]
      refine ⟨rfl, rfl, rfl, ?_⟩
      change max s.xEnd (j + 3) = _
      rw [show w / 4 * 4 - 1 = j + 3 by omega]
  | case5 j index s hge => exact absurd hlt hge

/-! ## All rows -/

theorem le_align64 (n : Nat) : n ≤ align64 n := by
  unfold align64
  omega

/-- A column of row `y` is in row `i` only if that is it. -/
theorem stride_iff {stride : Nat} (hx : x < w) (hw : w ≤ stride) :
    i * stride ≤ y * stride + x ∧ y * stride + x < i * stride + w ↔ y = i := by
  constructor
  · rintro ⟨hlo, hhi⟩
    rcases lt_trichotomy y i with hlt | heq | hgt
    · have h := Nat.mul_le_mul_right stride hlt
      rw [Nat.succ_mul] at h
      omega
    · exact heq
    · have h := Nat.mul_le_mul_right stride hgt
      rw [Nat.succ_mul] at h
      omega
  · rintro rfl
    omega

/-- Row `y` of the picture, behind row `i`. -/
theorem row_result (pal : List Rgba) (data : Nat → Nat) (s : Scan) (hx : x < w) (i y : Nat) :
    (s.row pal data w (i * align64 w) i 0 0).result (y * align64 w + x) =
      if y = i then rowColor pal data x else s.result (y * align64 w + x) := by
  have hrow := row_covers pal data w (i * align64 w) i s (show 0 = 4 * 0 from rfl)
    (y * align64 w + x)
  rw [hrow, Nat.add_zero]
  refine (if_congr (stride_iff hx (le_align64 w)) rfl rfl).trans ?_
  by_cases hy : y = i
  · rw [if_pos hy, if_pos hy, hy]
    exact congrArg (rowColor pal data) (Nat.add_sub_cancel_left ..)
  · rw [if_neg hy, if_neg hy]

theorem rows_result (s : Scan) (hx : x < w) (n i y : Nat) :
    (Scan.rows pal bytes w n i s).result (y * align64 w + x) =
      if i ≤ y ∧ y < i + n then rowColor pal (Scan.rowData bytes w y) x
      else s.result (y * align64 w + x) := by
  induction n generalizing i s with
  | zero => exact (if_neg (by omega)).symm
  | succ n ih =>
    rw [Scan.rows, ih, row_result pal _ s hx]
    by_cases hy : y = i
    · subst hy
      rw [if_neg (by omega), if_pos rfl, if_pos (by omega)]
    · rw [if_neg hy]
      exact if_congr (by omega) rfl rfl

theorem rows_edges (pal : List Rgba) (bytes : Nat → Nat) (hw : 0 < w) (n i : Nat) (s : Scan) :
    (Scan.rows pal bytes w (n + 1) i s).xStart = 0 ∧
    (Scan.rows pal bytes w (n + 1) i s).startHeight = some (s.startHeight.getD i) ∧
    (Scan.rows pal bytes w (n + 1) i s).endHeight = i + n ∧
    (Scan.rows pal bytes w (n + 1) i s).xEnd =
      if 4 ≤ w then max s.xEnd (w / 4 * 4 - 1) else s.xEnd := by
  have hrow := row_edges pal (Scan.rowData bytes w i) (i * align64 w) i s
    (show 0 = 4 * 0 from rfl) hw
  rw [Nat.zero_add] at hrow
  obtain ⟨hx, hst, hen, hxe⟩ := hrow
  rw [Scan.rows]
  cases n with
  | zero => exact ⟨hx.trans (Nat.min_zero _), hst, hen, hxe⟩
  | succ n =>
    obtain ⟨hx', hst', hen', hxe'⟩ := rows_edges pal bytes hw n (i + 1)
      (s.row pal (Scan.rowData bytes w i) w (i * align64 w) i 0 0)
    refine ⟨hx', ?_, by omega, ?_⟩
    · rw [hst', hst]
      rfl
    · rw [hxe', hxe]
      split <;> omega

/-! ## The cut -/

/-- The width behind the cut: the columns up to the last full byte, rounded up. -/
def cutWidth (w : Nat) : Nat := if w < 4 then 64 else align64 (w / 4 * 4)

theorem resize_eq (pal : List Rgba) (bytes : Nat → Nat) (hw : 0 < s'.width) (hh : 0 < s'.height) :
    (parserInterSpu pal bytes s').resize = ⟨0, 0, cutWidth s'.width, s'.height⟩ := by
  obtain ⟨n, hn⟩ : ∃ n, s'.height = n + 1 := ⟨s'.height - 1, by omega⟩
  obtain ⟨hx, hst, hen, hxe⟩ := rows_edges pal bytes hw n 0
    ⟨fun _ => 0, s'.width, 0, none, 0⟩
  unfold parserInterSpu Scan.resize
  rw [hn, hx, hst, hen, hxe]
  have hcut : align64 ((if 4 ≤ s'.width then max 0 (s'.width / 4 * 4 - 1) else 0) - 0 + 1) =
      cutWidth s'.width := by
    unfold cutWidth
    split
    · rw [if_neg (by omega)]
      congr 1
      omega
    · rw [if_pos (by omega)]
      rfl
  dsimp only [Option.getD]
  rw [hcut]
  congr 1
  omega

/-- It is the aligned width, or what is left of that is at most three columns. -/
theorem cutWidth_cases (hw : 0 < w) : 64 ≤ cutWidth w ∧
    (cutWidth w = align64 w ∨ cutWidth w < w ∧ w ≤ cutWidth w + 3) := by
  unfold cutWidth align64
  split <;> omega

theorem reset_of_pos (bytes : Nat → Nat) (pal : List Rgba) (heap : Words) (hw : 0 < s'.width)
    (hh : 0 < s'.height) : amsubVobResetData bytes s' pal heap =
      if s'.height * cutWidth s'.width * 4 ≤ vobSubSize then
        some (some ⟨copyWords (fun _ => 0) 0 (fillResizeData s' ⟨0, 0, cutWidth s'.width, s'.height⟩
          heap (parserInterSpu pal bytes s').result) 0 (s'.height * cutWidth s'.width),
          cutWidth s'.width, s'.height⟩)
      else none := by
  have hpos := Nat.mul_pos hw hh
  have hal := Nat.mul_pos (lt_of_lt_of_le hw (le_align64 _)) hh
  unfold amsubVobResetData getAmsubSize
  rw [if_neg (by rw [if_neg hpos.ne']; exact hal.ne')]
  dsimp only
  rw [resize_eq pal bytes hw hh]
  rfl

/-- **The cut picture** goes back into `amsub_data` when it fits. -/
theorem reset_iff (bytes : Nat → Nat) (s' : Spu) (pal : List Rgba) (heap : Words) :
    amsubVobResetData bytes s' pal heap ≠ none ↔
      s'.height * cutWidth s'.width * 4 ≤ vobSubSize := by
  have hheight := s'.height_le
  have hmax : vobSubHeight = 1280 := rfl
  have hsize : vobSubSize = 614400 := rfl
  by_cases hzero : s'.width = 0 ∨ s'.height = 0
  · refine iff_of_true ?_ ?_
    · unfold amsubVobResetData getAmsubSize
      rw [if_pos (if_pos (Nat.mul_eq_zero.mpr hzero))]
      exact Option.some_ne_none _
    · obtain h0 | h0 := hzero
      · rw [h0, show cutWidth 0 = 64 from rfl]
        omega
      · rw [h0, Nat.zero_mul]
        omega
  · rw [not_or] at hzero
    rw [reset_of_pos _ _ _ (Nat.pos_of_ne_zero hzero.1) (Nat.pos_of_ne_zero hzero.2)]
    split
    · exact iff_of_true (Option.some_ne_none _) ‹_›
    · exact iff_of_false (fun h => h rfl) ‹_›

/-- The rows that were copied. -/
theorem copyRows_apply (r : Resize) (stride : Nat) (src dst : Words) (hx : x < r.width)
    (hy : y < n) : copyRows r stride src n dst (y * r.width + x) =
      src (stride * r.yStart + stride * y + r.xStart + x) := by
  induction n with
  | zero => omega
  | succ n ih =>
    rw [copyRows, copyWords]
    by_cases hlast : y = n
    · subst hlast
      rw [Nat.mul_comm y, if_pos (by omega), Nat.add_sub_cancel_left]
    · have hmul := Nat.mul_le_mul_right r.width (show y + 1 ≤ n by omega)
      rw [Nat.succ_mul] at hmul
      rw [if_neg (by rw [Nat.mul_comm r.width n]; omega), ih (by omega)]

/-- The picture as it is parsed. -/
def parsedColor (pal : List Rgba) (bytes : Nat → Nat) (w y x : Nat) : Rgba :=
  rowColor pal (Scan.rowData bytes w y) x

theorem parsed_result (hx : x < s'.width) (hy : y < s'.height) :
    (parserInterSpu pal bytes s').result (align64 s'.width * y + x) =
      parsedColor pal bytes s'.width y x := by
  unfold parserInterSpu parsedColor
  rw [Nat.mul_comm, rows_result _ hx, if_pos (by omega)]

/-- Column `x` of row `y`, behind the cut: what is left of a row is the start of the next. -/
theorem reset_picture (bytes : Nat → Nat) (pal : List Rgba) (heap : Words) (hw : 0 < s'.width)
    (hh : 0 < s'.height) (hfits : s'.height * cutWidth s'.width * 4 ≤ vobSubSize) :
    ∃ p, amsubVobResetData bytes s' pal heap = some (some p) ∧ p.width = cutWidth s'.width ∧
      p.height = s'.height ∧ ∀ y x, y < s'.height → x < s'.width →
        p.words (y * p.width + x) =
          if x < cutWidth s'.width then parsedColor pal bytes s'.width y x
          else if y + 1 < s'.height then
            parsedColor pal bytes s'.width (y + 1) (x - cutWidth s'.width)
          else 0 := by
  refine ⟨_, (reset_of_pos bytes pal heap hw hh).trans (if_pos hfits), rfl, rfl, ?_⟩
  have hcell : ∀ y x, y < s'.height → x < s'.width → x < cutWidth s'.width →
      copyWords (fun _ => 0) 0 (fillResizeData s' ⟨0, 0, cutWidth s'.width, s'.height⟩ heap
        (parserInterSpu pal bytes s').result) 0 (s'.height * cutWidth s'.width)
        (y * cutWidth s'.width + x) = parsedColor pal bytes s'.width y x := by
    intro y x hy hx hcut
    have hmul := Nat.mul_le_mul_right (cutWidth s'.width) (show y + 1 ≤ s'.height by omega)
    rw [Nat.succ_mul] at hmul
    rw [copyWords, if_pos (by omega), Nat.sub_zero, Nat.zero_add, fillResizeData]
    split
    · rename_i hsize
      rw [Resize.size, getAmsubSize, if_neg (Nat.mul_pos hw hh).ne', Nat.mul_comm] at hsize
      have heq : cutWidth s'.width = align64 s'.width := Nat.eq_of_mul_eq_mul_right hh hsize
      rw [copyWords, Resize.size, if_pos (by dsimp only; omega), Nat.sub_zero, Nat.zero_add, heq,
        Nat.mul_comm y, parsed_result hx hy]
    · have hrow := copyRows_apply ⟨0, 0, cutWidth s'.width, s'.height⟩ (align64 s'.width)
        (parserInterSpu pal bytes s').result heap hcut hy
      rw [hrow, Nat.mul_zero, Nat.zero_add, Nat.add_zero, parsed_result hx hy]
  intro y x hy hx
  dsimp only
  split
  · exact hcell y x hy hx ‹_›
  · have hcut := cutWidth_cases hw
    have hal := le_align64 s'.width
    have hnext : y * cutWidth s'.width + x =
        (y + 1) * cutWidth s'.width + (x - cutWidth s'.width) := by
      rw [Nat.succ_mul]
      omega
    rw [hnext]
    split
    · exact hcell (y + 1) (x - cutWidth s'.width) ‹_› (by omega) (by omega)
    · rw [show y + 1 = s'.height by omega, copyWords, if_neg (by omega)]

end

end VendorAmlogic.Amsub.Vob
