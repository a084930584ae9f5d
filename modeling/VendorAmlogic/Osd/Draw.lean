import VendorAmlogic.Osd.Clip

/-!
# Drawing on software surfaces

`sw_pixel`, `sw_hline`, `sw_vline` and `sw_filled_rect` of `am_osd/sw_op.c`, and
`AM_OSD_DrawRect` of `am_osd/am_osd.c`. A pointer into the buffer is the pixel
it points to, and a canvas is the memory together with the pixels stored to. A
count below zero never gets to zero: `none`.
-/

namespace VendorAmlogic.Osd

open VendorAmlogic.Lib

/-! ## Model -/

/-- The bytes of a pixel value. -/
def pixBytes (bpp : Nat) (pix : BitVec 32) : List Byte :=
  (List.range bpp).map fun k => (pix >>> (8 * k)).setWidth 8

@[simp] theorem length_pixBytes (bpp : Nat) (pix : BitVec 32) :
    (pixBytes bpp pix).length = bpp := by
  simp [pixBytes]

structure Canvas where
  mem : Plane
  drawn : List (Int × Int)

section Model

variable (s : Surface) (pix : BitVec 32)

/-- The store of one pixel. -/
def Canvas.put (c : Canvas) (p : Int × Int) : Canvas where
  mem := c.mem.store (s.grid.offset p) (pixBytes s.grid.bpp pix)
  drawn := c.drawn ++ [p]

/-- `while(w--)` to the right; also `memset` of a row of bytes. -/
def rowLoop : Nat → Int × Int → Canvas → Canvas
  | 0, _, c => c
  | w + 1, p, c => rowLoop w (p.1 + 1, p.2) (c.put s pix p)

/-- `while(h--)` downwards. -/
def columnLoop : Nat → Int × Int → Canvas → Canvas
  | 0, _, c => c
  | h + 1, p, c => columnLoop h (p.1, p.2 + 1) (c.put s pix p)

/-- The rows of a rectangle. -/
def blockLoop (w : Nat) : Nat → Int × Int → Canvas → Canvas
  | 0, _, c => c
  | h + 1, p, c => blockLoop w h (p.1, p.2 + 1) (rowLoop s pix w p c)

def swPixel (x y : Int) (c : Canvas) : Option Canvas :=
  some (if amOsdClipPoint s.clip x y then c.put s pix (x, y) else c)

def swHline (x y w : Int) (c : Canvas) : Option Canvas :=
  match amOsdClipHLine s.clip x y w with
  | none => some c
  | some (x, w) => if w < 0 then none else some (rowLoop s pix w.toNat (x, y) c)

def swVline (x y h : Int) (c : Canvas) : Option Canvas :=
  match amOsdClipVLine s.clip x y h with
  | none => some c
  | some (y, h) => if h < 0 then none else some (columnLoop s pix h.toNat (x, y) c)

def swFilledRect (rect : Rect) (c : Canvas) : Option Canvas :=
  match amOsdClipRect s.clip rect with
  | none => some c
  | some dr =>
    if dr.h < 0 ∨ dr.w < 0 then none
    else some (blockLoop s pix dr.w.toNat dr.h.toNat (dr.x, dr.y) c)

def amOsdDrawRect (rect : Option Rect) (c : Canvas) : Option Canvas := do
  let rect := rect.getD ⟨0, 0, s.grid.width, s.grid.height⟩
  let c ← swHline s pix rect.x rect.y rect.w c
  let c ← swHline s pix rect.x (rect.y + rect.h - 1) rect.w c
  let c ← swVline s pix rect.x rect.y rect.h c
  swVline s pix (rect.x + rect.w - 1) rect.y rect.h c

end Model

/-! ## The pixels of the loops -/

def row : Nat → Int × Int → List (Int × Int)
  | 0, _ => []
  | w + 1, p => p :: row w (p.1 + 1, p.2)

def column : Nat → Int × Int → List (Int × Int)
  | 0, _ => []
  | h + 1, p => p :: column h (p.1, p.2 + 1)

def block (w : Nat) : Nat → Int × Int → List (Int × Int)
  | 0, _ => []
  | h + 1, p => row w p ++ block w h (p.1, p.2 + 1)

theorem mem_row {w : Nat} {p q : Int × Int} :
    q ∈ row w p ↔ q.2 = p.2 ∧ p.1 ≤ q.1 ∧ q.1 < p.1 + w := by
  induction w generalizing p with
  | zero => exact iff_of_false List.not_mem_nil (by omega)
  | succ w ih =>
    rw [row, List.mem_cons, ih, Prod.ext_iff]
    omega

theorem mem_column {h : Nat} {p q : Int × Int} :
    q ∈ column h p ↔ q.1 = p.1 ∧ p.2 ≤ q.2 ∧ q.2 < p.2 + h := by
  induction h generalizing p with
  | zero => exact iff_of_false List.not_mem_nil (by omega)
  | succ h ih =>
    rw [column, List.mem_cons, ih, Prod.ext_iff]
    omega

theorem mem_block {w h : Nat} {p q : Int × Int} :
    q ∈ block w h p ↔ (p.1 ≤ q.1 ∧ q.1 < p.1 + w) ∧ p.2 ≤ q.2 ∧ q.2 < p.2 + h := by
  induction h generalizing p with
  | zero => exact iff_of_false List.not_mem_nil (by omega)
  | succ h ih =>
    rw [block, List.mem_append, mem_row, ih]
    omega

section Loops

variable (s : Surface) (pix : BitVec 32)

/-- The stores of several pixels. -/
def Canvas.putAll (c : Canvas) (ps : List (Int × Int)) : Canvas where
  mem := s.grid.paint (pixBytes s.grid.bpp pix) c.mem ps
  drawn := c.drawn ++ ps

@[simp] theorem putAll_nil (c : Canvas) : c.putAll s pix [] = c := by
  simp only [Canvas.putAll, Grid.paint_nil, List.append_nil]

theorem putAll_cons (c : Canvas) (p : Int × Int) (ps : List (Int × Int)) :
    c.putAll s pix (p :: ps) = (c.put s pix p).putAll s pix ps := by
  simp only [Canvas.putAll, Canvas.put, Grid.paint_cons, List.append_assoc, List.singleton_append]

theorem putAll_append (c : Canvas) (ps qs : List (Int × Int)) :
    c.putAll s pix (ps ++ qs) = (c.putAll s pix ps).putAll s pix qs := by
  simp only [Canvas.putAll, Grid.paint_append, List.append_assoc]

theorem rowLoop_eq (w : Nat) (p : Int × Int) (c : Canvas) :
    rowLoop s pix w p c = c.putAll s pix (row w p) := by
  induction w generalizing p c with
  | zero => exact (putAll_nil s pix c).symm
  | succ w ih => rw [rowLoop, ih, row, putAll_cons]

theorem columnLoop_eq (h : Nat) (p : Int × Int) (c : Canvas) :
    columnLoop s pix h p c = c.putAll s pix (column h p) := by
  induction h generalizing p c with
  | zero => exact (putAll_nil s pix c).symm
  | succ h ih => rw [columnLoop, ih, column, putAll_cons]

theorem blockLoop_eq (w h : Nat) (p : Int × Int) (c : Canvas) :
    blockLoop s pix w h p c = c.putAll s pix (block w h p) := by
  induction h generalizing p c with
  | zero => exact (putAll_nil s pix c).symm
  | succ h ih => rw [blockLoop, ih, rowLoop_eq, block, putAll_append]

end Loops

/-! ## Painting a shape -/

section Painting

variable {s : Surface} {pix : BitVec 32} {act act' : Canvas → Option Canvas}
  {ps qs : List (Int × Int)} {shape : Int × Int → Prop}

/-- A pixel of the shape that is to be seen. -/
def Surface.Shows (s : Surface) (shape : Int × Int → Prop) (p : Int × Int) : Prop :=
  shape p ∧ s.clip.Has p ∧ s.grid.Has p

/-- On any memory the function ends, has stored to the pixels of the shape that are to be seen and
to no others, these have the value, and no other byte is changed. -/
structure Paints (s : Surface) (pix : BitVec 32) (shape : Int × Int → Prop)
    (act : Canvas → Option Canvas) (m : Plane) (c : Canvas) : Prop where
  ends : act ⟨m, []⟩ = some c
  drawn : ∀ p, p ∈ c.drawn ↔ s.Shows shape p
  value : ∀ p, s.Shows shape p → ∀ k, k < s.grid.bpp →
    c.mem (s.grid.offset p + k) = (pixBytes s.grid.bpp pix).getD k 0
  others : ∀ j, (∀ p, s.Shows shape p → ¬ s.grid.InPixel p j) → c.mem j = m j

def PaintsExactly (s : Surface) (pix : BitVec 32) (shape : Int × Int → Prop)
    (act : Canvas → Option Canvas) : Prop :=
  ∀ m, ∃ c, Paints s pix shape act m c

/-- The function stores to these pixels, whatever there is. -/
def Draws (s : Surface) (pix : BitVec 32) (ps : List (Int × Int))
    (act : Canvas → Option Canvas) : Prop :=
  ∀ c, act c = some (c.putAll s pix ps)

/-- The function does not end. -/
def Fails (act : Canvas → Option Canvas) : Prop := ∀ c, act c = none

/-- What is asked of the pixels that a function stores to. -/
theorem paintsExactly_iff (hs : s.Valid) (h : Draws s pix ps act) :
    PaintsExactly s pix shape act ↔ ∀ p, p ∈ ps ↔ s.Shows shape p := by
  constructor
  · intro hp p
    obtain ⟨c, hc⟩ := hp fun _ => 0
    have hends := hc.ends
    rw [h] at hends
    obtain rfl := Option.some.inj hends
    exact hc.drawn p
  · intro hps m
    have hhas : ∀ p ∈ ps, s.grid.Has p := fun p hp => ((hps p).mp hp).2.2
    refine ⟨_, h _, fun p => hps p, fun p hp k hk => ?_, fun j hj => ?_⟩
    · exact Grid.paint_in hs.grid (length_pixBytes _ _) hhas ((hps p).mpr hp) hk
    · exact Grid.paint_out (length_pixBytes _ _) fun p hp => hj p ((hps p).mp hp)

theorem Fails.not_paintsExactly (h : Fails act) : ¬ PaintsExactly s pix shape act := by
  intro hp
  obtain ⟨c, hc⟩ := hp fun _ => 0
  exact Option.some_ne_none c (hc.ends.symm.trans (h _))

theorem Draws.bind (h : Draws s pix ps act) (h' : Draws s pix qs act') :
    Draws s pix (ps ++ qs) fun c => act c >>= act' := by
  intro c
  show (act c).bind act' = _
  rw [h, Option.bind_some, h', putAll_append]

theorem Fails.bind (h : Fails act) : Fails fun c => act c >>= act' := by
  intro c
  show (act c).bind act' = none
  rw [h]
  rfl

theorem Draws.bind_fails (h : Draws s pix ps act) (h' : Fails act') :
    Fails fun c => act c >>= act' := by
  intro c
  show (act c).bind act' = none
  rw [h, Option.bind_some, h']

end Painting

/-! ## What the functions store to -/

section Functions

variable {s : Surface} {pix : BitVec 32} {x y w h : Int}

/-- The rectangle is not empty only in the surface. -/
def Surface.Holds (s : Surface) (r : Rect) : Prop :=
  r.Empty ∨ (0 ≤ r.x ∧ r.x + r.w ≤ s.grid.width ∧ 0 ≤ r.y ∧ r.y + r.h ≤ s.grid.height)

instance (s : Surface) (r : Rect) : Decidable (s.Holds r) := inferInstanceAs (Decidable (_ ∨ _))

/-- What the clip leaves of a rectangle lies in the surface. -/
def Surface.Fits (s : Surface) (r : Rect) : Prop := s.Holds (s.clip.inter r)

instance (s : Surface) (r : Rect) : Decidable (s.Fits r) := inferInstanceAs (Decidable (s.Holds _))

theorem holds_iff {r : Rect} : s.Holds r ↔ ∀ p, r.Has p → s.grid.Has p := by
  constructor
  · rintro (h | h) p hp
    · exact absurd hp (Rect.empty_iff.mp h p)
    · simp only [Rect.Has] at hp
      simp only [Grid.Has]
      omega
  · intro h
    by_cases hne : r.Empty
    · exact .inl hne
    · unfold Rect.Empty at hne
      have h1 : s.grid.Has (r.x, r.y) := h _ (by simp only [Rect.Has]; omega)
      have h2 : s.grid.Has (r.x + r.w - 1, r.y + r.h - 1) := h _ (by simp only [Rect.Has]; omega)
      simp only [Grid.Has] at h1 h2
      exact .inr (by omega)

theorem fits_iff {r : Rect} : s.Fits r ↔ ∀ p, r.Has p → s.clip.Has p → s.grid.Has p :=
  holds_iff.trans ⟨fun h p hr hc => h p (Rect.has_inter.mpr ⟨hc, hr⟩), fun h p hp =>
    h p (Rect.has_inter.mp hp).2 (Rect.has_inter.mp hp).1⟩

/-- The line is not in the rows of the clip, or it is not wholly beside it. -/
def Surface.HlineEnds (s : Surface) (x y w : Int) : Prop :=
  y < s.clip.y ∨ y ≥ s.clip.y + s.clip.h ∨ max x s.clip.x ≤ min (x + w) (s.clip.x + s.clip.w)

instance (s : Surface) (x y w : Int) : Decidable (s.HlineEnds x y w) :=
  inferInstanceAs (Decidable (_ ∨ _))

/-- The line is not in the columns of the clip, or it is not wholly above or below it. -/
def Surface.VlineEnds (s : Surface) (x y h : Int) : Prop :=
  x < s.clip.x ∨ x ≥ s.clip.x + s.clip.w ∨ max y s.clip.y ≤ min (y + h) (s.clip.y + s.clip.h)

instance (s : Surface) (x y h : Int) : Decidable (s.VlineEnds x y h) :=
  inferInstanceAs (Decidable (_ ∨ _))

/-- The stores are those of the clipped rectangle. -/
def DrawsClipped (s : Surface) (pix : BitVec 32) (r : Rect)
    (act : Canvas → Option Canvas) : Prop :=
  ∃ ps, Draws s pix ps act ∧ ∀ p, p ∈ ps ↔ r.Has p ∧ s.clip.Has p

theorem DrawsClipped.paintsExactly_iff {act : Canvas → Option Canvas} {r : Rect} (hs : s.Valid)
    (h : DrawsClipped s pix r act) : PaintsExactly s pix r.Has act ↔ s.Fits r := by
  obtain ⟨ps, hdraws, hps⟩ := h
  rw [Osd.paintsExactly_iff hs hdraws, fits_iff]
  constructor
  · exact fun h p hr hc => ((h p).mp ((hps p).mpr ⟨hr, hc⟩)).2.2
  · exact fun h p => (hps p).trans ⟨fun hp => ⟨hp.1, hp.2, h p hp.1 hp.2⟩, fun hp => ⟨hp.1, hp.2.1⟩⟩

theorem draws_nothing {act : Canvas → Option Canvas} {r : Rect} (hact : ∀ c, act c = some c)
    (hr : ∀ p, ¬ (r.Has p ∧ s.clip.Has p)) : DrawsClipped s pix r act :=
  ⟨[], fun c => by rw [hact, putAll_nil], fun p => iff_of_false List.not_mem_nil (hr p)⟩

theorem swPixel_draws : DrawsClipped s pix ⟨x, y, 1, 1⟩ (swPixel s pix x y) := by
  have hpix : ∀ p : Int × Int, Rect.Has ⟨x, y, 1, 1⟩ p ↔ p = (x, y) := fun p => by
    rw [Prod.ext_iff]
    simp only [Rect.Has]
    omega
  by_cases hc : amOsdClipPoint s.clip x y = true
  · refine ⟨[(x, y)], fun c => ?_, fun p => ?_⟩
    · rw [swPixel, if_pos hc, putAll_cons, putAll_nil]
    · rw [List.mem_singleton, hpix]
      exact ⟨fun hp => ⟨hp, hp ▸ amOsdClipPoint_iff.mp hc⟩, fun hp => hp.1⟩
  · refine draws_nothing (fun c => by rw [swPixel, if_neg hc]) fun p hp => ?_
    obtain rfl := (hpix p).mp hp.1
    exact hc (amOsdClipPoint_iff.mpr hp.2)

theorem swHline_draws (pix : BitVec 32) (hends : s.HlineEnds x y w) :
    DrawsClipped s pix ⟨x, y, w, 1⟩ (swHline s pix x y w) := by
  unfold Surface.HlineEnds at hends
  by_cases hrow : y < s.clip.y ∨ y ≥ s.clip.y + s.clip.h
  · refine draws_nothing (fun c => by rw [swHline, amOsdClipHLine, if_pos hrow]) fun p hp => ?_
    simp only [Rect.Has] at hp
    omega
  · refine ⟨row (min (x + w) (s.clip.x + s.clip.w) - max x s.clip.x).toNat (max x s.clip.x, y),
      fun c => ?_, fun p => ?_⟩
    · rw [swHline, amOsdClipHLine, if_neg hrow]
      simp only
      rw [if_neg (by omega), rowLoop_eq]
    · rw [mem_row]
      simp only [Rect.Has]
      omega

theorem swHline_fails (hends : ¬ s.HlineEnds x y w) : Fails (swHline s pix x y w) := by
  intro c
  unfold Surface.HlineEnds at hends
  rw [swHline, amOsdClipHLine, if_neg (by omega)]
  simp only
  rw [if_pos (by omega)]

theorem swVline_draws (pix : BitVec 32) (hends : s.VlineEnds x y h) :
    DrawsClipped s pix ⟨x, y, 1, h⟩ (swVline s pix x y h) := by
  unfold Surface.VlineEnds at hends
  by_cases hcol : x < s.clip.x ∨ x ≥ s.clip.x + s.clip.w
  · refine draws_nothing (fun c => by rw [swVline, amOsdClipVLine, if_pos hcol]) fun p hp => ?_
    simp only [Rect.Has] at hp
    omega
  · refine ⟨column (min (y + h) (s.clip.y + s.clip.h) - max y s.clip.y).toNat (x, max y s.clip.y),
      fun c => ?_, fun p => ?_⟩
    · rw [swVline, amOsdClipVLine, if_neg hcol]
      simp only
      rw [if_neg (by omega), columnLoop_eq]
    · rw [mem_column]
      simp only [Rect.Has]
      omega

theorem swVline_fails (hends : ¬ s.VlineEnds x y h) : Fails (swVline s pix x y h) := by
  intro c
  unfold Surface.VlineEnds at hends
  rw [swVline, amOsdClipVLine, if_neg (by omega)]
  simp only
  rw [if_pos (by omega)]

theorem swFilledRect_draws (r : Rect) : DrawsClipped s pix r (swFilledRect s pix r) := by
  cases hclip : amOsdClipRect s.clip r with
  | none =>
    refine draws_nothing (fun c => by rw [swFilledRect, hclip]) fun p hp => ?_
    exact amOsdClipRect_none hclip p hp.symm
  | some dr =>
    obtain ⟨hw, hh, hdr⟩ := amOsdClipRect_some hclip
    refine ⟨block dr.w.toNat dr.h.toNat (dr.x, dr.y), fun c => ?_, fun p => ?_⟩
    · rw [swFilledRect, hclip]
      simp only
      rw [if_neg (by omega), blockLoop_eq]
    · rw [mem_block, and_comm (a := r.Has p), ← hdr]
      simp only [Rect.Has]
      omega

end Functions

/-! ## The frame of a rectangle -/

section Frame

variable {s : Surface} {pix : BitVec 32}

/-- The pixels at the edges of a rectangle. -/
def Rect.Border (r : Rect) (p : Int × Int) : Prop :=
  r.Has p ∧ (p.1 = r.x ∨ p.1 = r.x + r.w - 1 ∨ p.2 = r.y ∨ p.2 = r.y + r.h - 1)

def Rect.top (r : Rect) : Rect := ⟨r.x, r.y, r.w, 1⟩
def Rect.bottom (r : Rect) : Rect := ⟨r.x, r.y + r.h - 1, r.w, 1⟩
def Rect.left (r : Rect) : Rect := ⟨r.x, r.y, 1, r.h⟩
def Rect.right (r : Rect) : Rect := ⟨r.x + r.w - 1, r.y, 1, r.h⟩

/-- The four lines of the frame. -/
def Rect.Lines (r : Rect) (p : Int × Int) : Prop :=
  r.top.Has p ∨ r.bottom.Has p ∨ r.left.Has p ∨ r.right.Has p

/-- What `AM_OSD_DrawRect` draws of: without a rectangle, the surface. -/
def Surface.frame (s : Surface) (rect : Option Rect) : Rect :=
  rect.getD ⟨0, 0, s.grid.width, s.grid.height⟩

def Surface.LinesEnd (s : Surface) (r : Rect) : Prop :=
  s.HlineEnds r.x r.y r.w ∧ s.HlineEnds r.x (r.y + r.h - 1) r.w ∧
    s.VlineEnds r.x r.y r.h ∧ s.VlineEnds (r.x + r.w - 1) r.y r.h

/-- The condition on each of the four lines. -/
def Rect.EachLine (r : Rect) (P : Rect → Prop) : Prop := P r.top ∧ P r.bottom ∧ P r.left ∧ P r.right

/-- The lines of the frame all end. What the clip leaves of them lies in the surface, and it is
nothing when the rectangle is empty. -/
def Surface.FramePlain (s : Surface) (r : Rect) : Prop :=
  s.LinesEnd r ∧ r.EachLine s.Fits ∧ (r.Empty → r.EachLine fun l => (s.clip.inter l).Empty)

instance (s : Surface) (r : Rect) : Decidable (s.FramePlain r) :=
  inferInstanceAs (Decidable ((_ ∧ _ ∧ _ ∧ _) ∧ (s.Fits _ ∧ s.Fits _ ∧ s.Fits _ ∧ s.Fits _) ∧
    (r.Empty → Rect.Empty _ ∧ Rect.Empty _ ∧ Rect.Empty _ ∧ Rect.Empty _)))

theorem lines_iff_border {r : Rect} (h : ¬ r.Empty) (p : Int × Int) : r.Lines p ↔ r.Border p := by
  unfold Rect.Empty at h
  simp only [Rect.Lines, Rect.Border, Rect.top, Rect.bottom, Rect.left, Rect.right, Rect.Has]
  omega

theorem eachLine_fits_iff {r : Rect} :
    r.EachLine s.Fits ↔ ∀ p, r.Lines p → s.clip.Has p → s.grid.Has p := by
  simp only [Rect.EachLine, fits_iff]
  constructor
  · rintro ⟨h1, h2, h3, h4⟩ p (hp | hp | hp | hp) hc
    · exact h1 p hp hc
    · exact h2 p hp hc
    · exact h3 p hp hc
    · exact h4 p hp hc
  · exact fun h => ⟨fun p hp => h p (.inl hp), fun p hp => h p (.inr (.inl hp)),
      fun p hp => h p (.inr (.inr (.inl hp))), fun p hp => h p (.inr (.inr (.inr hp)))⟩

theorem eachLine_empty_iff {r : Rect} :
    (r.EachLine fun l => (s.clip.inter l).Empty) ↔ ∀ p, ¬ (r.Lines p ∧ s.clip.Has p) := by
  simp only [Rect.EachLine, Rect.empty_iff, Rect.has_inter]
  constructor
  · rintro ⟨h1, h2, h3, h4⟩ p ⟨hp | hp | hp | hp, hc⟩
    · exact h1 p ⟨hc, hp⟩
    · exact h2 p ⟨hc, hp⟩
    · exact h3 p ⟨hc, hp⟩
    · exact h4 p ⟨hc, hp⟩
  · exact fun h => ⟨fun p hp => h p ⟨.inl hp.2, hp.1⟩, fun p hp => h p ⟨.inr (.inl hp.2), hp.1⟩,
      fun p hp => h p ⟨.inr (.inr (.inl hp.2)), hp.1⟩,
      fun p hp => h p ⟨.inr (.inr (.inr hp.2)), hp.1⟩⟩

theorem amOsdDrawRect_draws (pix : BitVec 32) {rect : Option Rect} (h : s.LinesEnd (s.frame rect)) :
    ∃ ps, Draws s pix ps (amOsdDrawRect s pix rect) ∧
      ∀ p, p ∈ ps ↔ (s.frame rect).Lines p ∧ s.clip.Has p := by
  obtain ⟨h1, h2, h3, h4⟩ := h
  obtain ⟨ps1, hd1, hp1⟩ := swHline_draws pix h1
  obtain ⟨ps2, hd2, hp2⟩ := swHline_draws pix h2
  obtain ⟨ps3, hd3, hp3⟩ := swVline_draws pix h3
  obtain ⟨ps4, hd4, hp4⟩ := swVline_draws pix h4
  refine ⟨_, hd1.bind (hd2.bind (hd3.bind hd4)), fun p => ?_⟩
  rw [List.mem_append, List.mem_append, List.mem_append, hp1, hp2, hp3, hp4, Rect.Lines,
    or_and_right, or_and_right, or_and_right]
  rfl

/-- A line that does not end keeps the frame from being drawn. -/
theorem amOsdDrawRect_fails {rect : Option Rect} (h : ¬ s.LinesEnd (s.frame rect)) :
    Fails (amOsdDrawRect s pix rect) := by
  by_cases h1 : s.HlineEnds (s.frame rect).x (s.frame rect).y (s.frame rect).w
  swap
  · exact (swHline_fails h1).bind
  obtain ⟨ps1, hd1, -⟩ := swHline_draws pix h1
  refine hd1.bind_fails ?_
  by_cases h2 : s.HlineEnds (s.frame rect).x ((s.frame rect).y + (s.frame rect).h - 1)
      (s.frame rect).w
  swap
  · exact (swHline_fails h2).bind
  obtain ⟨ps2, hd2, -⟩ := swHline_draws pix h2
  refine hd2.bind_fails ?_
  by_cases h3 : s.VlineEnds (s.frame rect).x (s.frame rect).y (s.frame rect).h
  swap
  · exact (swVline_fails h3).bind
  obtain ⟨ps3, hd3, -⟩ := swVline_draws pix h3
  refine hd3.bind_fails ?_
  by_cases h4 : s.VlineEnds ((s.frame rect).x + (s.frame rect).w - 1) (s.frame rect).y
      (s.frame rect).h
  · exact absurd ⟨h1, h2, h3, h4⟩ h
  · exact swVline_fails h4

theorem amOsdDrawRect_exactly_iff (hs : s.Valid) (rect : Option Rect) :
    PaintsExactly s pix (s.frame rect).Border (amOsdDrawRect s pix rect) ↔
      s.FramePlain (s.frame rect) := by
  unfold Surface.FramePlain
  by_cases hends : s.LinesEnd (s.frame rect)
  swap
  · exact iff_of_false (amOsdDrawRect_fails hends).not_paintsExactly fun h => hends h.1
  obtain ⟨ps, hdraws, hps⟩ := amOsdDrawRect_draws pix hends
  rw [paintsExactly_iff hs hdraws, eachLine_fits_iff, eachLine_empty_iff]
  simp only [hps, Surface.Shows]
  by_cases hempty : (s.frame rect).Empty
  · have hborder : ∀ p, ¬ (s.frame rect).Border p := fun p hp => Rect.empty_iff.mp hempty p hp.1
    constructor
    · intro h
      have hnone : ∀ p, ¬ ((s.frame rect).Lines p ∧ s.clip.Has p) := fun p hp =>
        hborder p ((h p).mp hp).1
      exact ⟨hends, fun p hl hc => absurd ⟨hl, hc⟩ (hnone p), fun _ => hnone⟩
    · rintro ⟨-, -, h⟩ p
      exact iff_of_false (h hempty p) fun hp => hborder p hp.1
  · constructor
    · exact fun h => ⟨hends, fun p hl hc => ((h p).mp ⟨hl, hc⟩).2.2, fun he => absurd he hempty⟩
    · rintro ⟨-, h, -⟩ p
      rw [← lines_iff_border hempty]
      exact ⟨fun hp => ⟨hp.1, hp.2, h p hp.1 hp.2⟩, fun hp => ⟨hp.1, hp.2.1⟩⟩

end Frame

/-! ## Which shapes are painted exactly -/

theorem Surface.Valid.setClip {s : Surface} (hs : s.Valid) (clip : Option Rect) :
    (amOsdSetClip s clip).Valid := by
  cases clip with
  | none => exact ⟨hs.grid, hs.bpp_le⟩
  | some clip => exact ⟨hs.grid, hs.bpp_le⟩

/-- A function that draws when its loop ends. -/
theorem exactly_iff_of_ends {s : Surface} (hs : s.Valid) {pix : BitVec 32} {r : Rect} {ends : Prop}
    {draw : Canvas → Option Canvas} (hdraws : ends → DrawsClipped s pix r draw)
    (hfails : ¬ ends → Fails draw) :
    PaintsExactly s pix (Rect.Has r) draw ↔ ends ∧ s.Fits r := by
  by_cases hends : ends
  · rw [(hdraws hends).paintsExactly_iff hs]
    exact (and_iff_right hends).symm
  · exact iff_of_false (hfails hends).not_paintsExactly fun h => hends h.1

theorem swHline_exactly_iff {s : Surface} (hs : s.Valid) (pix : BitVec 32) (x y w : Int) :
    PaintsExactly s pix (Rect.Has ⟨x, y, w, 1⟩) (swHline s pix x y w) ↔
      s.HlineEnds x y w ∧ s.Fits ⟨x, y, w, 1⟩ :=
  exactly_iff_of_ends hs (swHline_draws pix) swHline_fails

theorem swVline_exactly_iff {s : Surface} (hs : s.Valid) (pix : BitVec 32) (x y h : Int) :
    PaintsExactly s pix (Rect.Has ⟨x, y, 1, h⟩) (swVline s pix x y h) ↔
      s.VlineEnds x y h ∧ s.Fits ⟨x, y, 1, h⟩ :=
  exactly_iff_of_ends hs (swVline_draws pix) swVline_fails

/-- **Drawing under a clip**: when each of the functions paints exactly what is to be seen of its
shape. -/
theorem drawing_exact_iff (s : Surface) (hs : s.Valid) (clip : Option Rect) (pix : BitVec 32)
    (x y w h : Int) (r : Rect) (rect : Option Rect) :
    let t := amOsdSetClip s clip
    (PaintsExactly t pix (Rect.Has ⟨x, y, 1, 1⟩) (swPixel t pix x y) ↔ t.Fits ⟨x, y, 1, 1⟩) ∧
    (PaintsExactly t pix (Rect.Has ⟨x, y, w, 1⟩) (swHline t pix x y w) ↔
      t.HlineEnds x y w ∧ t.Fits ⟨x, y, w, 1⟩) ∧
    (PaintsExactly t pix (Rect.Has ⟨x, y, 1, h⟩) (swVline t pix x y h) ↔
      t.VlineEnds x y h ∧ t.Fits ⟨x, y, 1, h⟩) ∧
    (PaintsExactly t pix r.Has (swFilledRect t pix r) ↔ t.Fits r) ∧
    (PaintsExactly t pix (t.frame rect).Border (amOsdDrawRect t pix rect) ↔
      t.FramePlain (t.frame rect)) := by
  intro t
  have ht : t.Valid := hs.setClip clip
  exact ⟨swPixel_draws.paintsExactly_iff ht, swHline_exactly_iff ht pix x y w,
    swVline_exactly_iff ht pix x y h, (swFilledRect_draws r).paintsExactly_iff ht,
    amOsdDrawRect_exactly_iff ht rect⟩

/-- Eight by four pixels of two bytes, with two more bytes after each row. -/
def exampleSurface : Surface := ⟨⟨8, 4, 18, 2⟩, ⟨0, 0, 8, 4⟩⟩

theorem exampleSurface_valid : exampleSurface.Valid :=
  ⟨⟨by decide, by decide, by decide, by decide⟩, by decide⟩

/-- A line from the left of the clip on, and the frame of the surface. -/
theorem drawing_exact_exampleSurface :
    let t := amOsdSetClip exampleSurface (some ⟨2, 1, 4, 2⟩)
    PaintsExactly t 0xF00F (Rect.Has ⟨-3, 1, 7, 1⟩) (swHline t 0xF00F (-3) 1 7) ∧
      PaintsExactly t 0xF00F (t.frame none).Border (amOsdDrawRect t 0xF00F none) := by
  obtain ⟨-, hline, -, -, hrect⟩ := drawing_exact_iff exampleSurface exampleSurface_valid
    (some ⟨2, 1, 4, 2⟩) 0xF00F (-3) 1 7 0 ⟨0, 0, 0, 0⟩ none
  exact ⟨hline.mpr (by decide), hrect.mpr (by decide)⟩

/-- A line in a row of the clip and left of it. -/
theorem drawing_not_exact_line :
    let t := amOsdSetClip exampleSurface (some ⟨4, 0, 4, 4⟩)
    ¬ PaintsExactly t 0xF00F (Rect.Has ⟨0, 0, 2, 1⟩) (swHline t 0xF00F 0 0 2) := by
  intro t h
  exact absurd ((swHline_exactly_iff (exampleSurface_valid.setClip _) 0xF00F 0 0 2).mp h).1
    (by decide)

end VendorAmlogic.Osd
