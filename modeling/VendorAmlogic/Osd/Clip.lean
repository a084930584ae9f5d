import VendorAmlogic.Lib.Raster

/-!
# Clipping

The clip functions of `am_osd/clip.c`, and `AM_OSD_SetClip` of `am_osd/am_osd.c`
for a software surface. Coordinates are those whose sums are `int`s.
-/

namespace VendorAmlogic.Osd

open VendorAmlogic.Lib

/-- `AM_OSD_Rect_t`. -/
structure Rect where
  x : Int
  y : Int
  w : Int
  h : Int
  deriving DecidableEq, Repr

/-- The pixels of a rectangle; there are none when it is empty. -/
def Rect.Has (r : Rect) (p : Int × Int) : Prop :=
  (r.x ≤ p.1 ∧ p.1 < r.x + r.w) ∧ r.y ≤ p.2 ∧ p.2 < r.y + r.h

instance (r : Rect) (p : Int × Int) : Decidable (r.Has p) := inferInstanceAs (Decidable (_ ∧ _))

/-- What the drawing functions use of an `AM_OSD_Surface_t`. -/
structure Surface where
  grid : Grid
  clip : Rect
  deriving DecidableEq, Repr

structure Surface.Valid (s : Surface) : Prop where
  grid : s.grid.Valid
  bpp_le : s.grid.bpp ≤ 4

/-- The common part of two rectangles; its size may be negative. -/
def Rect.inter (c r : Rect) : Rect :=
  let minx := max c.x r.x
  let miny := max c.y r.y
  ⟨minx, miny, min (c.x + c.w) (r.x + r.w) - minx, min (c.y + c.h) (r.y + r.h) - miny⟩

def Rect.Empty (r : Rect) : Prop := r.w ≤ 0 ∨ r.h ≤ 0

instance (r : Rect) : Decidable r.Empty := inferInstanceAs (Decidable (_ ∨ _))

theorem Rect.has_inter {c r : Rect} {p : Int × Int} : (c.inter r).Has p ↔ c.Has p ∧ r.Has p := by
  simp only [Rect.Has, Rect.inter]
  omega

theorem Rect.empty_iff {r : Rect} : r.Empty ↔ ∀ p, ¬ r.Has p := by
  constructor
  · rintro h p ⟨hx, hy⟩
    unfold Rect.Empty at h
    omega
  · intro h
    by_contra hne
    unfold Rect.Empty at hne
    exact h (r.x, r.y) ⟨⟨Int.le_refl _, by simp only; omega⟩, Int.le_refl _, by simp only; omega⟩

/-! ## Model -/

def amOsdSetClip (s : Surface) (clip : Option Rect) : Surface :=
  match clip with
  | some clip => { s with clip := clip }
  | none => { s with clip := ⟨0, 0, s.grid.width, s.grid.height⟩ }

def amOsdClipPoint (c : Rect) (x y : Int) : Bool :=
  ¬ (x < c.x ∨ x ≥ c.x + c.w ∨ y < c.y ∨ y ≥ c.y + c.h)

/-- The part of a horizontal line in the clip rectangle; its width may be negative. -/
def amOsdClipHLine (c : Rect) (x y w : Int) : Option (Int × Int) :=
  if y < c.y ∨ y ≥ c.y + c.h then none
  else
    let minx := max x c.x
    let maxx := min (x + w) (c.x + c.w)
    some (minx, maxx - minx)

def amOsdClipVLine (c : Rect) (x y h : Int) : Option (Int × Int) :=
  if x < c.x ∨ x ≥ c.x + c.w then none
  else
    let miny := max y c.y
    let maxy := min (y + h) (c.y + c.h)
    some (miny, maxy - miny)

def amOsdClipRect (c r : Rect) : Option Rect :=
  let minx := max c.x r.x
  let miny := max c.y r.y
  let maxx := min (c.x + c.w) (r.x + r.w)
  let maxy := min (c.y + c.h) (r.y + r.h)
  if maxx ≤ minx ∨ maxy ≤ miny then none else some ⟨minx, miny, maxx - minx, maxy - miny⟩

/-! ## What they find -/

variable {c r o : Rect}

theorem amOsdClipPoint_iff {x y : Int} : amOsdClipPoint c x y = true ↔ c.Has (x, y) := by
  unfold amOsdClipPoint Rect.Has
  rw [decide_eq_true_iff]
  omega

/-- The common rectangle is not empty, and has the pixels of both. -/
theorem amOsdClipRect_some (h : amOsdClipRect c r = some o) :
    0 < o.w ∧ 0 < o.h ∧ ∀ p, o.Has p ↔ c.Has p ∧ r.Has p := by
  unfold amOsdClipRect at h
  simp only at h
  split at h
  · exact absurd h (Option.some_ne_none _).symm
  · obtain rfl := Option.some.inj h
    exact ⟨by simp only; omega, by simp only; omega, fun p => Rect.has_inter⟩

theorem amOsdClipRect_none (h : amOsdClipRect c r = none) (p : Int × Int) :
    ¬ (c.Has p ∧ r.Has p) := by
  unfold amOsdClipRect at h
  simp only at h
  split at h
  · simp only [Rect.Has]
    omega
  · exact absurd h (Option.some_ne_none _)

end VendorAmlogic.Osd
