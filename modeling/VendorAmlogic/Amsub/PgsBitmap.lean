import VendorAmlogic.Lib.Mem

/-!
# PGS subtitle bitmaps

`draw_pixel_fun` and `af_pgs_subtitle_rlebitmap_render` of
`libsub_pgs/amsub_pgs_dec.c`, and the run length code. The end of a line that is
full is left for the row below, which skips it while nothing has been drawn.
-/

namespace VendorAmlogic.Amsub.Pgs

open VendorAmlogic.Lib

/-! ## Rendering -/

def intMax : Nat := 2 ^ 31 - 1

/-- `PGS_subtitle_showdata`, what rendering reads of it. -/
structure ShowData where
  imageWidth : Nat
  imageHeight : Nat
  palette : Byte → BitVec 32
  rleBuf : Mem
  rleBufSize : Nat

def pixelBytes (pixel : BitVec 32) : List Byte :=
  [(pixel >>> 24).setWidth 8, (pixel >>> 16).setWidth 8, (pixel >>> 8).setWidth 8,
    pixel.setWidth 8]

theorem length_rowBytes (ps : List (BitVec 32)) :
    (ps.flatMap pixelBytes).length = 4 * ps.length := by
  induction ps with
  | nil => rfl
  | cons p ps ih =>
    rw [List.flatMap_cons, List.length_append, ih, List.length_cons]
    change 4 + 4 * ps.length = _
    omega

namespace ShowData

def lineSize (s : ShowData) : Nat := 4 * s.imageWidth

/-- `draw_pixel_fun`; a line offset beyond `int` has no meaning. -/
def drawPixel (s : ShowData) (x y : Nat) (pixel : BitVec 32) (buf : Mem) : Option Mem :=
  if intMax < s.lineSize * y then none
  else if s.imageWidth ≤ x ∨ s.imageHeight ≤ y then some buf
  else some (buf.copy (s.lineSize * y + 4 * x) (pixelBytes pixel))

/-- So many pixels, from `x` on. -/
def drawRun (s : ShowData) (y : Nat) (pixel : BitVec 32) : Nat → Nat → Mem → Option Mem
  | 0, _, buf => some buf
  | count + 1, x, buf => (s.drawPixel x y pixel buf).bind (s.drawRun y pixel count (x + 1))

def pixelOf (s : ShowData) (mode : Bool) (i : Byte) : BitVec 32 :=
  if mode then s.palette i else i.setWidth 32

/-- A run behind its 00: the count, the colour and where the next one is. -/
def runAt (s : ShowData) (ptr : Nat) : Nat × Byte × Nat :=
  let b := s.rleBuf ptr
  if b &&& 0x40 ≠ 0 then
    let count := (b &&& 0x3F).toNat <<< 8 ||| (s.rleBuf (ptr + 1)).toNat
    if b &&& 0x80 ≠ 0 then (count, s.rleBuf (ptr + 2), ptr + 3) else (count, 0, ptr + 2)
  else
    let count := (b &&& 0x3F).toNat
    if b &&& 0x80 ≠ 0 then (count, s.rleBuf (ptr + 1), ptr + 2) else (count, 0, ptr + 1)

theorem runAt_lt (s : ShowData) (ptr : Nat) : ptr < (s.runAt ptr).2.2 := by
  unfold runAt
  dsimp only
  split <;> split <;> dsimp only <;> omega

/-- One round of the inner loop, with the next `x` and `ptr`. -/
def renderRun (s : ShowData) (mode : Bool) (y x ptr : Nat) (buf : Mem) :
    Option (Nat × Nat × Mem) :=
  if s.rleBuf ptr = 0 ∧ s.rleBuf (ptr + 1) = 0 then
    if 0 < x then
      (s.drawRun y 0 (s.imageWidth - x) x buf).map fun buf => (s.imageWidth, ptr + 2, buf)
    else some (x, ptr + 2, buf)
  else if s.rleBuf ptr ≠ 0 then
    (s.drawPixel x y (s.pixelOf mode (s.rleBuf ptr)) buf).map fun buf => (x + 1, ptr + 1, buf)
  else
    let r := s.runAt (ptr + 1)
    (s.drawRun y (s.pixelOf mode r.2.1) r.1 x buf).map fun buf => (x + r.1, r.2.2, buf)

theorem renderRun_lt {s : ShowData} {mode : Bool} {y x ptr x' ptr' : Nat} {buf buf' : Mem}
    (h : s.renderRun mode y x ptr buf = some (x', ptr', buf')) : ptr < ptr' := by
  unfold renderRun at h
  have hrun := s.runAt_lt (ptr + 1)
  split at h
  · split at h
    · obtain ⟨_, -, h⟩ := Option.map_eq_some_iff.mp h
      cases h
      omega
    · cases h
      omega
  · split at h
    · obtain ⟨_, -, h⟩ := Option.map_eq_some_iff.mp h
      cases h
      omega
    · obtain ⟨_, -, h⟩ := Option.map_eq_some_iff.mp h
      cases h
      omega

/-- The inner loop, on row `y`. -/
def renderRow (s : ShowData) (mode : Bool) (y x ptr : Nat) (buf : Mem) : Option (Nat × Mem) :=
  if _h : x < s.imageWidth ∧ ptr < s.rleBufSize then
    match _h' : s.renderRun mode y x ptr buf with
    | none => none
    | some (x, ptr, buf) => s.renderRow mode y x ptr buf
  else some (ptr, buf)
termination_by s.rleBufSize - ptr
decreasing_by
  have := renderRun_lt _h'
  omega

/-- The outer loop, with `render_height`. -/
def renderRows (s : ShowData) (mode : Bool) (y ptr : Nat) (buf : Mem) : Option (Nat × Mem) :=
  if y < s.imageHeight ∧ ptr < s.rleBufSize then
    (s.renderRow mode y 0 ptr buf).bind fun r => s.renderRows mode (y + 1) r.1 r.2
  else some (y, buf)
termination_by s.imageHeight - y

/-- `af_pgs_subtitle_rlebitmap_render`, on `result_buf`. -/
def render (s : ShowData) (mode : Bool) (buf : Mem) : Option (Nat × Mem) :=
  s.renderRows mode 0 0 buf

end ShowData

/-! ## The code -/

inductive Run where
  | single (color : Byte)
  | zeros (count : Nat)
  | longZeros (count : Nat)
  | colored (count : Nat) (color : Byte)
  | longColored (count : Nat) (color : Byte)

namespace Run

def length : Run → Nat
  | single _ => 1
  | zeros count => count
  | longZeros count => count
  | colored count _ => count
  | longColored count _ => count

def color : Run → Byte
  | single c => c
  | zeros _ => 0
  | longZeros _ => 0
  | colored _ c => c
  | longColored _ c => c

/-- The count fits, and the code is not that of the end of a line. -/
def Valid : Run → Prop
  | single c => c ≠ (0 : Byte)
  | zeros count => 0 < count ∧ count < 0x40
  | longZeros count => count < 0x4000
  | colored count _ => count < 0x40
  | longColored count _ => count < 0x4000

instance : (r : Run) → Decidable r.Valid
  | single c => inferInstanceAs (Decidable (c ≠ (0 : Byte)))
  | zeros count => inferInstanceAs (Decidable (0 < count ∧ count < 0x40))
  | longZeros count => inferInstanceAs (Decidable (count < 0x4000))
  | colored count _ => inferInstanceAs (Decidable (count < 0x40))
  | longColored count _ => inferInstanceAs (Decidable (count < 0x4000))

def bytes : Run → List Byte
  | single c => [c]
  | zeros count => [0, BitVec.ofNat 8 count]
  | longZeros count => [0, 0x40 ||| BitVec.ofNat 8 (count / 256), BitVec.ofNat 8 (count % 256)]
  | colored count c => [0, 0x80 ||| BitVec.ofNat 8 count, c]
  | longColored count c =>
    [0, 0xC0 ||| BitVec.ofNat 8 (count / 256), BitVec.ofNat 8 (count % 256), c]

end Run

abbrev Line := List Run

namespace Line

def total (l : Line) : Nat := (l.map Run.length).sum

def runBytes (l : Line) : List Byte := l.flatMap Run.bytes

/-- A line with its end. -/
def bytes (l : Line) : List Byte := l.runBytes ++ [0, 0]

def pixels (palette : Byte → BitVec 32) (l : Line) : List (BitVec 32) :=
  l.flatMap fun r => List.replicate r.length (palette r.color)

/-- The row: the pixels of the runs, and zero pixels behind them. -/
def row (palette : Byte → BitVec 32) (width : Nat) (l : Line) : List (BitVec 32) :=
  l.pixels palette ++ List.replicate (width - l.total) 0

end Line

/-- The buffer has the lines of the picture, none of them empty or too long. -/
structure Encodes (s : ShowData) (lines : List Line) : Prop where
  width : 1 ≤ s.imageWidth ∧ s.imageWidth ≤ 65535
  height : 1 ≤ s.imageHeight ∧ s.imageHeight ≤ 65535
  count : lines.length = s.imageHeight
  valid : ∀ l ∈ lines, (∀ r ∈ l, r.Valid) ∧ 1 ≤ l.total ∧ l.total ≤ s.imageWidth
  size : s.rleBufSize = (lines.flatMap Line.bytes).length
  data : s.rleBuf.read 0 s.rleBufSize = lines.flatMap Line.bytes

/-- Every row of the picture is rendered. -/
def Rendered (s : ShowData) (lines : List Line) : Prop :=
  ∀ buf, ∃ buf', s.render true buf = some (s.imageHeight, buf') ∧
    ∀ y (hy : y < lines.length), buf'.read (s.lineSize * y) s.lineSize =
      ((lines[y]).row s.palette s.imageWidth).flatMap pixelBytes

/-! ## Drawing -/

namespace ShowData

section
variable {s : ShowData} {mode : Bool} {x y ptr count : Nat} {pixel : BitVec 32} {buf : Mem}
  {l : Line} {r : Run} {b : Byte} {bs rest : List Byte}

/-- A run within the row. -/
theorem drawRun_eq (hy : y < s.imageHeight) (hfit : s.lineSize * y ≤ intMax)
    (hx : x + count ≤ s.imageWidth) :
    s.drawRun y pixel count x buf = some (buf.copy (s.lineSize * y + 4 * x)
      ((List.replicate count pixel).flatMap pixelBytes)) := by
  induction count generalizing x buf with
  | zero => rw [drawRun, List.replicate_zero, List.flatMap_nil, Mem.copy_nil]
  | succ count ih =>
    have hpixel : s.drawPixel x y pixel buf =
        some (buf.copy (s.lineSize * y + 4 * x) (pixelBytes pixel)) := by
      rw [drawPixel, if_neg (by omega), if_neg (by omega)]
    have hlen : (pixelBytes pixel).length = 4 := rfl
    rw [drawRun, hpixel, Option.bind_some, ih (by omega), List.replicate_succ, List.flatMap_cons,
      Mem.copy_append, hlen, Nat.mul_add, Nat.add_assoc]

theorem drawRun_overflow (hover : intMax < s.lineSize * y) (hc : 0 < count) :
    s.drawRun y pixel count x buf = none := by
  obtain ⟨n, rfl⟩ : ∃ n, count = n + 1 := ⟨count - 1, by omega⟩
  rw [drawRun, drawPixel, if_pos hover, Option.bind_none]

/-! ## Reading the code -/

/-- The bytes are what is left of the code. -/
def At (s : ShowData) (ptr : Nat) (bs : List Byte) : Prop :=
  s.rleBuf.read ptr bs.length = bs ∧ ptr + bs.length = s.rleBufSize

theorem at_cons : s.At ptr (b :: bs) ↔ s.rleBuf ptr = b ∧ s.At (ptr + 1) bs := by
  unfold At
  rw [List.length_cons, Mem.read_succ, List.cons.injEq, and_assoc,
    show ptr + (bs.length + 1) = ptr + 1 + bs.length by omega]

theorem At.append (h : s.At ptr (bs ++ rest)) : s.At (ptr + bs.length) rest := by
  induction bs generalizing ptr with
  | nil => exact h
  | cons b bs ih =>
    rw [List.length_cons, show ptr + (bs.length + 1) = ptr + 1 + bs.length by omega]
    exact ih (at_cons.mp h).2

theorem At.lt (h : s.At ptr (b :: bs)) : ptr < s.rleBufSize := by
  have := h.2
  rw [List.length_cons] at this
  omega

/-- The bits of the header of a run. -/
theorem header_bits : ∀ n : Fin 64,
    ((BitVec.ofNat 8 n &&& 0x40 = 0 ∧ BitVec.ofNat 8 n &&& 0x80 = 0) ∧
      ((0x80 ||| BitVec.ofNat 8 n) &&& 0x40 = 0 ∧ (0x80 ||| BitVec.ofNat 8 n) &&& 0x80 ≠ 0) ∧
      ((0x40 ||| BitVec.ofNat 8 n) &&& 0x40 ≠ 0 ∧ (0x40 ||| BitVec.ofNat 8 n) &&& 0x80 = 0) ∧
      ((0xC0 ||| BitVec.ofNat 8 n) &&& 0x40 ≠ 0 ∧ (0xC0 ||| BitVec.ofNat 8 n) &&& 0x80 ≠ 0)) ∧
    ((BitVec.ofNat 8 n &&& 0x3F).toNat = n ∧ ((0x80 ||| BitVec.ofNat 8 n) &&& 0x3F).toNat = n ∧
      ((0x40 ||| BitVec.ofNat 8 n) &&& 0x3F).toNat = n ∧
      ((0xC0 ||| BitVec.ofNat 8 n) &&& 0x3F).toNat = n) := by
  decide

theorem long_count (count : Nat) :
    (count / 256) <<< 8 ||| (BitVec.ofNat 8 (count % 256)).toNat = count := by
  rw [BitVec.toNat_ofNat, Nat.mod_mod_of_dvd _ (dvd_refl _),
    ← Nat.shiftLeft_add_eq_or_of_lt (Nat.mod_lt _ (by decide)), Nat.shiftLeft_eq]
  omega

/-- The forms with a 00 in front: they are read as they were written. -/
theorem runAt_eq (hr : r.Valid) (hb : r.bytes = 0 :: bs) (hat : s.At ptr (bs ++ rest)) :
    s.rleBuf ptr ≠ 0 ∧ s.runAt ptr = (r.length, r.color, ptr + bs.length) := by
  unfold runAt
  cases r with
  | single c => exact absurd (List.cons.inj hb).1 hr
  | zeros count =>
    obtain ⟨⟨⟨h40, h80⟩, -⟩, hcount, -⟩ := header_bits ⟨count, hr.2⟩
    obtain ⟨-, rfl⟩ := List.cons.inj hb
    obtain ⟨h1, -⟩ := at_cons.mp hat
    dsimp only at hcount ⊢
    rw [h1, if_neg (not_not.mpr h40), if_neg (not_not.mpr h80), hcount]
    refine ⟨fun h0 => ?_, rfl⟩
    rw [h0] at hcount
    exact absurd hcount.symm hr.1.ne'
  | longZeros count =>
    obtain ⟨⟨-, -, ⟨h40, h80⟩, -⟩, -, -, hcount, -⟩ :=
      header_bits ⟨count / 256, Nat.div_lt_of_lt_mul hr⟩
    obtain ⟨-, rfl⟩ := List.cons.inj hb
    obtain ⟨h1, hat⟩ := at_cons.mp hat
    obtain ⟨h2, -⟩ := at_cons.mp hat
    dsimp only at hcount ⊢
    rw [h1, h2, if_pos h40, if_neg (not_not.mpr h80), hcount, long_count]
    exact ⟨fun h0 => h40 (by rw [h0]; rfl), rfl⟩
  | colored count c =>
    obtain ⟨⟨-, ⟨h40, h80⟩, -⟩, -, hcount, -⟩ := header_bits ⟨count, hr⟩
    obtain ⟨-, rfl⟩ := List.cons.inj hb
    obtain ⟨h1, hat⟩ := at_cons.mp hat
    obtain ⟨h2, -⟩ := at_cons.mp hat
    dsimp only at hcount ⊢
    rw [h1, h2, if_neg (not_not.mpr h40), if_pos h80, hcount]
    exact ⟨fun h0 => h80 (by rw [h0]; rfl), rfl⟩
  | longColored count c =>
    obtain ⟨⟨-, -, -, h40, h80⟩, -, -, -, hcount⟩ :=
      header_bits ⟨count / 256, Nat.div_lt_of_lt_mul hr⟩
    obtain ⟨-, rfl⟩ := List.cons.inj hb
    obtain ⟨h1, hat⟩ := at_cons.mp hat
    obtain ⟨h2, hat⟩ := at_cons.mp hat
    obtain ⟨h3, -⟩ := at_cons.mp hat
    dsimp only at hcount ⊢
    rw [h1, h2, h3, if_pos h40, if_pos h80, hcount, long_count]
    exact ⟨fun h0 => h40 (by rw [h0]; rfl), rfl⟩

theorem bytes_form (r : Run) : (∃ c, r = .single c) ∨ ∃ bs, r.bytes = 0 :: bs := by
  cases r with
  | single c => exact .inl ⟨c, rfl⟩
  | zeros count => exact .inr ⟨_, rfl⟩
  | longZeros count => exact .inr ⟨_, rfl⟩
  | colored count c => exact .inr ⟨_, rfl⟩
  | longColored count c => exact .inr ⟨_, rfl⟩

/-- A run is drawn, whichever its form. -/
theorem renderRun_run (hr : r.Valid) (hat : s.At ptr (r.bytes ++ rest)) :
    s.renderRun mode y x ptr buf = (s.drawRun y (s.pixelOf mode r.color) r.length x buf).map
      fun buf => (x + r.length, ptr + r.bytes.length, buf) := by
  unfold renderRun
  rcases bytes_form r with ⟨c, rfl⟩ | ⟨bs, hb⟩
  · obtain ⟨h0, -⟩ := at_cons.mp hat
    have hone : s.drawRun y (s.pixelOf mode c) 1 x buf =
        s.drawPixel x y (s.pixelOf mode c) buf := by
      rw [drawRun]
      exact Option.bind_fun_some _
    have hc : c ≠ 0 := hr
    rw [h0, if_neg (fun h => hc h.1), if_pos hc, Run.length, Run.color, hone]
    rfl
  · rw [hb] at hat
    obtain ⟨h0, hat⟩ := at_cons.mp hat
    obtain ⟨hne, hrun⟩ := runAt_eq hr hb hat
    rw [h0, if_neg (fun h => hne h.2), if_neg (not_not.mpr rfl), hrun, hb, List.length_cons,
      Nat.add_comm bs.length, ← Nat.add_assoc]

/-- The end of a line: the rest of the row is cleared, if there is any. -/
theorem renderRun_end (hat : s.At ptr (0 :: 0 :: rest)) :
    s.renderRun mode y x ptr buf =
      if 0 < x then
        (s.drawRun y 0 (s.imageWidth - x) x buf).map fun buf => (s.imageWidth, ptr + 2, buf)
      else some (x, ptr + 2, buf) := by
  obtain ⟨h0, hat⟩ := at_cons.mp hat
  obtain ⟨h1, -⟩ := at_cons.mp hat
  rw [renderRun, if_pos ⟨h0, h1⟩]

theorem renderRow_eq (s : ShowData) (mode : Bool) (y x ptr : Nat) (buf : Mem) :
    s.renderRow mode y x ptr buf =
      if x < s.imageWidth ∧ ptr < s.rleBufSize then
        (s.renderRun mode y x ptr buf).bind fun r => s.renderRow mode y r.1 r.2.1 r.2.2
      else some (ptr, buf) := by
  rw [renderRow]
  split
  · split
    · rename_i h
      rw [h, Option.bind_none]
    · rename_i h
      rw [h, Option.bind_some]
  · rfl

/-! ## Rows -/

theorem total_cons : Line.total (r :: l) = r.length + Line.total l := rfl

theorem pixels_cons {palette : Byte → BitVec 32} : Line.pixels palette (r :: l) =
    List.replicate r.length (palette r.color) ++ Line.pixels palette l := rfl

theorem bytes_cons : Line.bytes (r :: l) = r.bytes ++ Line.bytes l := by
  rw [Line.bytes, Line.bytes, Line.runBytes, Line.runBytes, List.flatMap_cons, List.append_assoc]

/-- What a row leaves: nothing, or what draws nothing at the start of the next one. -/
def Skipped (p : List Byte) : Prop :=
  p = [] ∨ ∃ l : Line, (∀ r ∈ l, r.Valid) ∧ l.total = 0 ∧ p = l.bytes

theorem bytes_ne_nil (r : Run) : ∃ b bs, r.bytes = b :: bs := by
  cases r <;> exact ⟨_, _, rfl⟩

theorem renderRow_skipped {p : List Byte} (hw : 0 < s.imageWidth) (hp : Skipped p)
    (hat : s.At ptr (p ++ rest)) :
    s.renderRow mode y 0 ptr buf = s.renderRow mode y 0 (ptr + p.length) buf := by
  rcases hp with rfl | ⟨l, hv, h0, rfl⟩
  · rfl
  induction l generalizing ptr with
  | nil =>
    rw [renderRow_eq, if_pos ⟨hw, hat.lt⟩, renderRun_end hat, if_neg (lt_irrefl 0),
      Option.bind_some]
    rfl
  | cons r l ih =>
    rw [total_cons] at h0
    rw [bytes_cons] at hat ⊢
    rw [List.append_assoc] at hat
    obtain ⟨b, bs, hb⟩ := bytes_ne_nil r
    have hlt : ptr < s.rleBufSize := by
      rw [hb] at hat
      exact hat.lt
    have hlen : r.length = 0 := by omega
    rw [renderRow_eq, if_pos ⟨hw, hlt⟩, renderRun_run (hv r List.mem_cons_self) hat, hlen, drawRun,
      Option.map_some, Option.bind_some, List.length_append, ← Nat.add_assoc]
    exact ih (fun r hr => hv r (List.mem_cons_of_mem _ hr)) (by omega) hat.append

/-- A row that is full leaves the rest of its line, which draws nothing. -/
theorem renderRow_full (hv : ∀ r ∈ l, r.Valid) (h0 : l.total = 0)
    (hat : s.At ptr (l.bytes ++ rest)) :
    ∃ ptr' p, Skipped p ∧ s.At ptr' (p ++ rest) ∧
      s.renderRow mode y s.imageWidth ptr buf =
        some (ptr', buf.copy (s.lineSize * y + 4 * s.imageWidth)
          ((l.pixels (s.pixelOf mode) ++
            List.replicate (s.imageWidth - s.imageWidth - l.total) 0).flatMap pixelBytes)) := by
  have hnone : l.pixels (s.pixelOf mode) = [] := by
    refine List.flatMap_eq_nil_iff.mpr fun r hr => ?_
    have := List.le_sum_of_mem (List.mem_map_of_mem (f := Run.length) hr)
    rw [List.replicate_eq_nil_iff]
    unfold Line.total at h0
    omega
  refine ⟨ptr, l.bytes, .inr ⟨l, hv, h0, rfl⟩, hat, ?_⟩
  rw [renderRow_eq, if_neg (by omega), hnone, List.nil_append, Nat.sub_self, Nat.zero_sub,
    List.replicate_zero, List.flatMap_nil, Mem.copy_nil]

/-- **A row**: the runs of a line and zero pixels behind them. -/
theorem renderRow_line (mode : Bool) (buf : Mem) (hy : y < s.imageHeight)
    (hfit : s.lineSize * y ≤ intMax)
    (hv : ∀ r ∈ l, r.Valid) (hpos : 0 < x ∨ 0 < l.total) (hle : x + l.total ≤ s.imageWidth)
    (hat : s.At ptr (l.bytes ++ rest)) :
    ∃ ptr' p, Skipped p ∧ s.At ptr' (p ++ rest) ∧
      s.renderRow mode y x ptr buf = some (ptr', buf.copy (s.lineSize * y + 4 * x)
        ((l.pixels (s.pixelOf mode) ++
          List.replicate (s.imageWidth - x - l.total) 0).flatMap pixelBytes)) := by
  induction l generalizing x ptr buf with
  | nil =>
    by_cases hx : x = s.imageWidth
    · subst hx
      exact renderRow_full hv rfl hat
    · have hx0 : 0 < x := hpos.resolve_right (lt_irrefl 0)
      have hxw : x < s.imageWidth := by
        have : Line.total [] = 0 := rfl
        omega
      refine ⟨ptr + 2, [], .inl rfl, hat.append, ?_⟩
      rw [renderRow_eq, if_pos ⟨hxw, hat.lt⟩, renderRun_end hat, if_pos hx0,
        drawRun_eq hy hfit (by omega), Option.map_some, Option.bind_some, renderRow_eq,
        if_neg (by omega)]
      rfl
  | cons r l ih =>
    rw [total_cons] at hpos hle
    by_cases hx : x = s.imageWidth
    · subst hx
      exact renderRow_full hv (by rw [total_cons]; omega) hat
    · have hxw : x < s.imageWidth := by omega
      rw [bytes_cons, List.append_assoc] at hat
      obtain ⟨b, bs, hb⟩ := bytes_ne_nil r
      have hlt : ptr < s.rleBufSize := by
        rw [hb] at hat
        exact hat.lt
      obtain ⟨ptr', p, hp, hat', hrow⟩ := ih (x := x + r.length)
        (buf.copy (s.lineSize * y + 4 * x)
          ((List.replicate r.length (s.pixelOf mode r.color)).flatMap pixelBytes))
        (fun r hr => hv r (List.mem_cons_of_mem _ hr)) (by omega) (by omega) hat.append
      refine ⟨ptr', p, hp, hat', ?_⟩
      rw [renderRow_eq, if_pos ⟨hxw, hlt⟩, renderRun_run (hv r List.mem_cons_self) hat,
        drawRun_eq hy hfit (by omega), Option.map_some, Option.bind_some, hrow, total_cons]
      have hlen : ((List.replicate r.length (s.pixelOf mode r.color)).flatMap pixelBytes).length =
          4 * r.length := by
        rw [length_rowBytes, List.length_replicate]
      rw [pixels_cons, List.append_assoc,
        show s.imageWidth - (x + r.length) - Line.total l =
          s.imageWidth - x - (r.length + Line.total l) by omega]
      generalize Line.pixels (s.pixelOf mode) l ++ _ = tail
      rw [List.flatMap_append, Mem.copy_append, hlen, Nat.mul_add, ← Nat.add_assoc]

/-- In a row that cannot be addressed the first pixel has no meaning. -/
theorem renderRow_overflow (hover : intMax < s.lineSize * y) (hw : 0 < s.imageWidth)
    (hv : ∀ r ∈ l, r.Valid) (hpos : 0 < l.total) (hat : s.At ptr (l.bytes ++ rest)) :
    s.renderRow mode y 0 ptr buf = none := by
  induction l generalizing ptr with
  | nil => exact absurd hpos (lt_irrefl 0)
  | cons r l ih =>
    rw [total_cons] at hpos
    rw [bytes_cons, List.append_assoc] at hat
    obtain ⟨b, bs, hb⟩ := bytes_ne_nil r
    have hlt : ptr < s.rleBufSize := by
      rw [hb] at hat
      exact hat.lt
    rw [renderRow_eq, if_pos ⟨hw, hlt⟩, renderRun_run (hv r List.mem_cons_self) hat]
    by_cases hlen : r.length = 0
    · rw [hlen, drawRun, Option.map_some, Option.bind_some]
      exact ih (fun r hr => hv r (List.mem_cons_of_mem _ hr)) (by omega) hat.append
    · rw [drawRun_overflow hover (by omega), Option.map_none, Option.bind_none]

/-! ## The picture -/

theorem renderRows_eq (hy : y < s.imageHeight) (hlt : ptr < s.rleBufSize) :
    s.renderRows mode y ptr buf =
      (s.renderRow mode y 0 ptr buf).bind fun r => s.renderRows mode (y + 1) r.1 r.2 := by
  rw [renderRows, if_pos ⟨hy, hlt⟩]

/-- Where a line is left there is something to read. -/
theorem At.lt_line {p : List Byte} (hat : s.At ptr (p ++ (l.bytes ++ rest))) :
    ptr < s.rleBufSize := by
  have := hat.2
  rw [List.length_append, List.length_append, Line.bytes, List.length_append] at this
  change ptr + (p.length + (l.runBytes.length + 2 + rest.length)) = _ at this
  omega

theorem length_row (palette : Byte → BitVec 32) {width : Nat} (h : l.total ≤ width) :
    ((l.row palette width).flatMap pixelBytes).length = 4 * width := by
  have hpixels : (l.pixels palette).length = l.total := by
    simp only [Line.pixels, Line.total, List.length_flatMap, List.length_replicate]
  rw [length_rowBytes, Line.row, List.length_append, hpixels, List.length_replicate,
    Nat.add_sub_cancel' h]

/-- The lines that are left are drawn into the rows that are left. -/
theorem renderRows_lines (mode : Bool) (buf : Mem) {ls : List Line} {p : List Byte}
    (hfit : s.lineSize * (s.imageHeight - 1) ≤ intMax) (hw : 0 < s.imageWidth)
    (hv : ∀ l ∈ ls, (∀ r ∈ l, r.Valid) ∧ 1 ≤ l.total ∧ l.total ≤ s.imageWidth)
    (hcount : y + ls.length = s.imageHeight) (hp : Skipped p)
    (hat : s.At ptr (p ++ ls.flatMap Line.bytes)) :
    ∃ buf', s.renderRows mode y ptr buf = some (s.imageHeight, buf') ∧
      (∀ a, a < s.lineSize * y → buf' a = buf a) ∧
      ∀ j (hj : j < ls.length), buf'.read (s.lineSize * (y + j)) s.lineSize =
        ((ls[j]).row (s.pixelOf mode) s.imageWidth).flatMap pixelBytes := by
  induction ls generalizing y ptr p buf with
  | nil =>
    refine ⟨buf, ?_, fun _ _ => rfl, fun j hj => absurd hj (Nat.not_lt_zero j)⟩
    rw [List.length_nil, Nat.add_zero] at hcount
    rw [renderRows, if_neg (by omega), hcount]
  | cons l ls ih =>
    rw [List.length_cons] at hcount
    obtain ⟨hvl, hpos, hle⟩ := hv l List.mem_cons_self
    rw [List.flatMap_cons] at hat
    have hlt := At.lt_line hat
    have hy : s.lineSize * y ≤ intMax :=
      (Nat.mul_le_mul_left _ (by omega)).trans hfit
    obtain ⟨ptr', p', hp', hat', hrow⟩ := renderRow_line (x := 0) mode buf
      (by omega) hy hvl (.inr hpos) (by omega) hat.append
    rw [Nat.mul_zero, Nat.add_zero, Nat.sub_zero] at hrow
    have hlen : ((l.row (s.pixelOf mode) s.imageWidth).flatMap pixelBytes).length =
        s.lineSize := length_row _ hle
    obtain ⟨buf', hrun, hbelow, hrows⟩ := ih (y := y + 1)
      (buf.copy (s.lineSize * y) ((l.row (s.pixelOf mode) s.imageWidth).flatMap pixelBytes))
      (fun l hl => hv l (List.mem_cons_of_mem _ hl)) (by omega) hp' hat'
    refine ⟨buf', ?_, ?_, ?_⟩
    · rw [renderRows_eq (by omega) hlt, renderRow_skipped hw hp hat, hrow, Option.bind_some]
      exact hrun
    · intro a ha
      rw [hbelow a (by rw [Nat.mul_succ]; omega), Mem.copy_of_lt ha]
    · intro j hj
      cases j with
      | zero =>
        have hread : buf'.read (s.lineSize * y) s.lineSize =
            (buf.copy (s.lineSize * y)
              ((l.row (s.pixelOf mode) s.imageWidth).flatMap pixelBytes)).read
              (s.lineSize * y) s.lineSize := by
          refine Mem.read_congr fun i hi => hbelow _ ?_
          rw [Nat.mul_succ]
          omega
        rw [Nat.add_zero, hread, List.getElem_cons_zero]
        conv_lhs => rw [← hlen]
        exact Mem.read_copy_at _ _ _
      | succ j =>
        rw [List.getElem_cons_succ, show y + (j + 1) = y + 1 + j by omega]
        exact hrows j _

theorem renderRows_overflow (mode : Bool) (buf : Mem) {ls : List Line} {p : List Byte}
    (hover : intMax < s.lineSize * (s.imageHeight - 1)) (hw : 0 < s.imageWidth)
    (hv : ∀ l ∈ ls, (∀ r ∈ l, r.Valid) ∧ 1 ≤ l.total ∧ l.total ≤ s.imageWidth)
    (hcount : y + ls.length = s.imageHeight) (hy : y < s.imageHeight) (hp : Skipped p)
    (hat : s.At ptr (p ++ ls.flatMap Line.bytes)) : s.renderRows mode y ptr buf = none := by
  induction ls generalizing y ptr p buf with
  | nil =>
    rw [List.length_nil] at hcount
    omega
  | cons l ls ih =>
    rw [List.length_cons] at hcount
    obtain ⟨hvl, hpos, hle⟩ := hv l List.mem_cons_self
    rw [List.flatMap_cons] at hat
    rw [renderRows_eq hy hat.lt_line, renderRow_skipped hw hp hat]
    by_cases hrow : intMax < s.lineSize * y
    · rw [renderRow_overflow hrow hw hvl hpos hat.append, Option.bind_none]
    · obtain ⟨ptr', p', hp', hat', hline⟩ := renderRow_line (x := 0) mode buf
        hy (not_lt.mp hrow) hvl (.inr hpos) (by omega) hat.append
      have hnext : y ≠ s.imageHeight - 1 := fun h => hrow (h ▸ hover)
      rw [hline, Option.bind_some]
      exact ih _ (fun l hl => hv l (List.mem_cons_of_mem _ hl)) (by omega) (by omega) hp' hat'

end

end ShowData

section
variable {s : ShowData} {lines : List Line}

theorem Encodes.at (h : Encodes s lines) : s.At 0 ([] ++ lines.flatMap Line.bytes) := by
  refine ⟨?_, ?_⟩
  · rw [List.nil_append, ← h.size]
    exact h.data
  · rw [List.nil_append, h.size, Nat.zero_add]

/-- A picture whose last row cannot be addressed is not rendered. -/
theorem Encodes.not_rendered (h : Encodes s lines)
    (hover : intMax < s.lineSize * (s.imageHeight - 1)) : ¬ Rendered s lines := by
  intro hr
  obtain ⟨buf', hrun, -⟩ := hr fun _ => 0
  have hnone := ShowData.renderRows_overflow (y := 0) true (fun _ => 0) hover
    h.width.1 h.valid (by rw [Nat.zero_add, h.count]) h.height.1 (.inl rfl) h.at
  rw [ShowData.render, hnone] at hrun
  cases hrun

/-- **When a picture is rendered**: when the offset of its last row is an `int`. -/
theorem rendered_iff (h : Encodes s lines) :
    Rendered s lines ↔ s.lineSize * (s.imageHeight - 1) ≤ intMax := by
  constructor
  · intro hr
    by_contra hover
    exact h.not_rendered (not_le.mp hover) hr
  · intro hfit buf
    obtain ⟨buf', hrun, -, hrows⟩ := ShowData.renderRows_lines (y := 0) true buf hfit
      h.width.1 h.valid (by rw [Nat.zero_add, h.count]) (.inl rfl) h.at
    refine ⟨buf', hrun, fun y hy => ?_⟩
    have hrow := hrows y hy
    rwa [Nat.zero_add] at hrow

/-- **A picture whose size is an `int`** is rendered. `parser_one_pgs` makes a buffer of that size. -/
theorem rendered_of_size (h : Encodes s lines) (hsize : s.lineSize * s.imageHeight ≤ intMax) :
    Rendered s lines := by
  rw [rendered_iff h]
  exact (Nat.mul_le_mul_left _ (Nat.sub_le ..)).trans hsize

end

/-- A picture in a buffer of its own. -/
def pictureOf (width : Nat) (palette : Byte → BitVec 32) (lines : List Line) : ShowData where
  imageWidth := width
  imageHeight := lines.length
  palette := palette
  rleBuf := fun a => (lines.flatMap Line.bytes).getD a 0
  rleBufSize := (lines.flatMap Line.bytes).length

theorem encodes_pictureOf {width : Nat} {lines : List Line} (palette : Byte → BitVec 32)
    (hw : 1 ≤ width ∧ width ≤ 65535) (hh : 1 ≤ lines.length ∧ lines.length ≤ 65535)
    (hv : ∀ l ∈ lines, (∀ r ∈ l, r.Valid) ∧ 1 ≤ l.total ∧ l.total ≤ width) :
    Encodes (pictureOf width palette lines) lines where
  width := hw
  height := hh
  count := rfl
  valid := hv
  size := rfl
  data := Mem.eq_read rfl fun i _ => by rw [Nat.zero_add]; rfl

@[simp] theorem pictureOf_lineSize (width : Nat) (palette : Byte → BitVec 32)
    (lines : List Line) : (pictureOf width palette lines).lineSize = 4 * width := rfl

@[simp] theorem pictureOf_imageHeight (width : Nat) (palette : Byte → BitVec 32)
    (lines : List Line) : (pictureOf width palette lines).imageHeight = lines.length := rfl

/-- A full line and a short one. -/
theorem rendered_two :
    Rendered (pictureOf 3 (fun i => i.setWidth 32 <<< 24) [[.single 7, .colored 2 9], [.zeros 1]])
      [[.single 7, .colored 2 9], [.zeros 1]] :=
  rendered_of_size (encodes_pictureOf _ (by decide) (by decide) (by decide)) (by decide)

/-- **A large picture**: 65535 by 8194 pixels, one pixel in each line. -/
theorem not_rendered_large :
    Encodes (pictureOf 65535 (fun _ => 0) (List.replicate 8194 [.single 1]))
        (List.replicate 8194 [.single 1]) ∧
      ¬ Rendered (pictureOf 65535 (fun _ => 0) (List.replicate 8194 [.single 1]))
        (List.replicate 8194 [.single 1]) := by
  have hlen : (List.replicate 8194 [Run.single 1]).length = 8194 := List.length_replicate
  have h : Encodes (pictureOf 65535 (fun _ => 0) (List.replicate 8194 [.single 1]))
      (List.replicate 8194 [.single 1]) := by
    refine encodes_pictureOf _ (by decide) (by rw [hlen]; decide) fun l hl => ?_
    rw [List.eq_of_mem_replicate hl]
    decide
  refine ⟨h, h.not_rendered ?_⟩
  rw [pictureOf_lineSize, pictureOf_imageHeight, hlen]
  decide

end VendorAmlogic.Amsub.Pgs
