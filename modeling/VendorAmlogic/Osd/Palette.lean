import VendorAmlogic.Lib.Bytes

/-!
# The palette of an OSD format

`AM_OSD_SetPalette`, and the palette branches of `AM_OSD_MapColor` and
`AM_OSD_MapPixel` of `am_osd/am_osd.c`. A palette is the list of its entries.
That the palette of an OSD surface is passed on to its driver is left out.
-/

namespace VendorAmlogic.Osd

open VendorAmlogic.Lib

/-- `AM_OSD_Color_t`. -/
structure Color where
  r : Byte
  g : Byte
  b : Byte
  a : Byte
  deriving DecidableEq, Repr, Inhabited

attribute [ext] Color

abbrev Palette := List Color

/-! ## Model -/

/-- A call of `AM_OSD_SetPalette`. -/
structure SetCall where
  pal : Nat → Color
  start : Int
  count : Int

/-- A sum that is an `int`. -/
def FitsInt (x : Int) : Prop := -2 ^ 31 ≤ x ∧ x < 2 ^ 31

instance (x : Int) : Decidable (FitsInt x) := inferInstanceAs (Decidable (_ ∧ _))

def SetCall.first (c : SetCall) : Int := max 0 c.start

def SetCall.last (c : SetCall) (color_count : Nat) : Int := min color_count (c.start + c.count)

/-- `none`: the sum overflows, or `memcpy` gets a negative length. -/
def amOsdSetPalette (colors : Palette) (c : SetCall) : Option Palette :=
  if ¬ FitsInt (c.start + c.count) then none
  else
    let start := c.first
    let count := c.last colors.length - c.first
    if count ≠ 0 then
      if count < 0 then none
      else some (colors.mapIdx fun i e =>
        if start ≤ i ∧ i < start + count then c.pal (i - start).toNat else e)
    else some colors

/-- `AM_ABS` of a difference. -/
def absDiff (x y : Byte) : Nat := ((x.toNat : Int) - y.toNat).natAbs

/-- How far two colors are from each other. -/
def Color.diff (col e : Color) : Nat :=
  absDiff col.r e.r + absDiff col.g e.g + absDiff col.b e.b + absDiff col.a e.a

/-- The search: `pal` stays where it is. The result is `cid`, and what `*pix` is then. -/
def searchLoop (col pal : Color) : Nat → Nat → Nat → Nat → Nat → Nat × Nat
  | 0, _, cid, _, pix => (cid, pix)
  | left + 1, i, cid, least, pix =>
    let diff := col.diff pal
    if diff = 0 then (cid, i)
    else if diff < least then searchLoop col pal left (i + 1) i diff pix
    else searchLoop col pal left (i + 1) cid least pix

/-- What `AM_OSD_MapColor` leaves in `*pix`: first what the search left there, then `cid`. -/
def amOsdMapColor (colors : Palette) (col : Color) : Nat :=
  let r := searchLoop col (colors.getD 0 default) colors.length 0 0 (2 ^ 31 - 1) 0
  r.1

/-- `none`: `AM_OSD_ERR_ILLEGAL_PIXEL`. -/
def amOsdMapPixel (colors : Palette) (pix : Nat) : Option Color :=
  if pix ≥ colors.length then none else some (colors.getD pix default)

/-! ## Setting entries -/

/-- Entry `i` is one of those that the call is to set. -/
def SetCall.Covers (c : SetCall) (i : Nat) : Prop := c.start ≤ i ∧ i < c.start + c.count

instance (c : SetCall) (i : Nat) : Decidable (c.Covers i) := inferInstanceAs (Decidable (_ ∧ _))

/-- The entry that a call is to set. -/
def SetCall.entry (c : SetCall) (e : Color) (i : Nat) : Color :=
  if c.Covers i then c.pal (i - c.start).toNat else e

/-- Entry `i` by the last of the calls that cover it. -/
def entryAfter (calls : List SetCall) (e : Color) (i : Nat) : Color :=
  match calls.reverse.find? fun c => c.Covers i with
  | some c => c.pal (i - c.start).toNat
  | none => e

def setAll (colors : Palette) (calls : List SetCall) : Option Palette :=
  calls.foldlM amOsdSetPalette colors

/-- After each of the calls, the entries are as the calls so far say. -/
def Held (colors : Palette) (calls : List SetCall) : Prop :=
  ∀ k, k ≤ calls.length →
    setAll colors (calls.take k) = some (colors.mapIdx fun i e => entryAfter (calls.take k) e i)

/-- The end of the range is an `int` and not before its start, both clamped, and where the range
begins below zero, the colors are the same as those that far behind them. -/
def SetCall.Plain (c : SetCall) (color_count : Nat) : Prop :=
  FitsInt (c.start + c.count) ∧ c.first ≤ c.last color_count ∧
    ∀ i : Nat, i < c.last color_count - c.first → c.pal i = c.pal (c.first - c.start + i).toNat

theorem entryAfter_append (calls : List SetCall) (c : SetCall) (e : Color) (i : Nat) :
    entryAfter (calls ++ [c]) e i = c.entry (entryAfter calls e i) i := by
  unfold entryAfter SetCall.entry
  rw [List.reverse_append, List.reverse_singleton, List.singleton_append, List.find?_cons]
  by_cases h : c.Covers i
  · rw [decide_eq_true h, if_pos h]
  · rw [decide_eq_false h, if_neg h]

/-- The entries in the clamped range are those that are covered. -/
theorem covers_iff {c : SetCall} {n i : Nat} (hi : i < n) :
    c.Covers i ↔ c.first ≤ i ∧ i < c.last n := by
  unfold SetCall.Covers SetCall.first SetCall.last
  omega

/-- A call sets what it is to set just when it is plain. -/
theorem amOsdSetPalette_iff (colors : Palette) (c : SetCall) :
    amOsdSetPalette colors c = some (colors.mapIdx fun i e => c.entry e i) ↔
      c.Plain colors.length := by
  unfold amOsdSetPalette SetCall.Plain
  by_cases hfit : FitsInt (c.start + c.count)
  swap
  · rw [if_pos hfit]
    exact iff_of_false (Option.some_ne_none _).symm fun h => hfit h.1
  rw [if_neg (not_not.mpr hfit)]
  simp only
  have hlast : c.last colors.length ≤ colors.length := by
    unfold SetCall.last
    omega
  have hfirst : 0 ≤ c.first := le_max_left _ _
  have hstart : c.start ≤ c.first := le_max_right _ _
  by_cases hcount : c.last colors.length - c.first ≠ 0
  swap
  · -- nothing is set, and nothing is covered
    rw [if_neg hcount]
    refine iff_of_true ?_ ⟨hfit, by omega, fun i hi => by omega⟩
    congr 1
    refine (List.ext_getElem (by simp) fun i h1 h2 => ?_)
    rw [List.getElem_mapIdx, SetCall.entry, if_neg]
    rw [covers_iff h1]
    omega
  rw [if_pos hcount]
  by_cases hneg : c.last colors.length - c.first < 0
  · rw [if_pos hneg]
    exact iff_of_false (Option.some_ne_none _).symm fun h => by omega
  rw [if_neg hneg, Option.some_inj]
  constructor
  · intro h
    refine ⟨hfit, by omega, fun i hi => ?_⟩
    have hlt : c.first.toNat + i < colors.length := by omega
    have hget := congrArg (fun l => l[c.first.toNat + i]?) h
    simp only [List.getElem?_mapIdx, List.getElem?_eq_getElem hlt, Option.map_some,
      Option.some_inj] at hget
    rw [if_pos (by omega), SetCall.entry, if_pos ((covers_iff hlt).mpr (by omega))] at hget
    rw [show ((c.first.toNat + i : Nat) - c.first : Int).toNat = i by omega] at hget
    rw [hget]
    congr 1
    omega
  · rintro ⟨-, -, hsame⟩
    refine List.ext_getElem (by simp) fun i h1 h2 => ?_
    rw [List.length_mapIdx] at h1
    rw [List.getElem_mapIdx, List.getElem_mapIdx, SetCall.entry]
    by_cases hin : c.Covers i
    · have hin' := (covers_iff h1).mp hin
      rw [if_pos hin, if_pos (by omega)]
      have := hsame (i - c.first).toNat (by omega)
      rw [this]
      congr 1
      omega
    · have hin' : ¬ (c.first ≤ i ∧ (i : Int) < c.last colors.length) := fun h =>
        hin ((covers_iff h1).mpr h)
      rw [if_neg hin, if_neg (by omega)]

/-- The entries of a run of calls, from those before its last call. -/
theorem held_append {colors : Palette} {calls : List SetCall} (c : SetCall)
    (h : Held colors calls) :
    Held colors (calls ++ [c]) ↔ c.Plain colors.length := by
  have hbefore : setAll colors calls = some (colors.mapIdx fun i e => entryAfter calls e i) := by
    have := h calls.length (Nat.le_refl _)
    rwa [List.take_length] at this
  have hlen : (colors.mapIdx fun i e => entryAfter calls e i).length = colors.length := by simp
  have hafter : setAll colors (calls ++ [c]) =
      amOsdSetPalette (colors.mapIdx fun i e => entryAfter calls e i) c := by
    unfold setAll at hbefore ⊢
    rw [List.foldlM_append, hbefore]
    simp only [List.foldlM_cons, List.foldlM_nil, bind_pure]
    rfl
  have hentries : (colors.mapIdx fun i e => entryAfter (calls ++ [c]) e i) =
      (colors.mapIdx fun i e => entryAfter calls e i).mapIdx fun i e => c.entry e i := by
    rw [List.mapIdx_mapIdx]
    exact congrArg colors.mapIdx (funext fun i => funext fun e => entryAfter_append calls c e i)
  have hiff := amOsdSetPalette_iff (colors.mapIdx fun i e => entryAfter calls e i) c
  rw [hlen] at hiff
  rw [← hiff, ← hafter, ← hentries]
  constructor
  · intro hall
    have := hall (calls ++ [c]).length (Nat.le_refl _)
    rwa [List.take_length] at this
  · intro hlast k hk
    rw [List.length_append, List.length_singleton] at hk
    rcases Nat.lt_or_ge calls.length k with hlt | hge
    · rw [List.take_of_length_le (by rw [List.length_append, List.length_singleton]; omega)]
      exact hlast
    · rw [List.take_append_of_le_length hge]
      exact h k hge

theorem Held.prefix {colors : Palette} {calls : List SetCall} {c : SetCall}
    (h : Held colors (calls ++ [c])) : Held colors calls := by
  intro k hk
  have := h k (by rw [List.length_append]; omega)
  rwa [List.take_append_of_le_length hk] at this

theorem held_iff (colors : Palette) (calls : List SetCall) :
    Held colors calls ↔ ∀ c ∈ calls, c.Plain colors.length := by
  induction calls using List.reverseRecOn with
  | nil =>
    refine iff_of_true (fun k hk => ?_) (fun _ hc => absurd hc List.not_mem_nil)
    obtain rfl : k = 0 := Nat.le_zero.mp hk
    show some colors = some (colors.mapIdx fun _ e => e)
    rw [Option.some_inj]
    exact List.ext_getElem (by simp) fun i h1 h2 => by rw [List.getElem_mapIdx]
  | append_singleton calls c ih =>
    constructor
    · intro h c' hc'
      rcases List.mem_append.mp hc' with hc' | hc'
      · exact ih.mp h.prefix c' hc'
      · rw [List.mem_singleton.mp hc']
        exact (held_append c h.prefix).mp h
    · intro h
      have hcalls := ih.mpr fun c' hc' => h c' (List.mem_append_left _ hc')
      exact (held_append c hcalls).mpr (h c (List.mem_append_right _ List.mem_cons_self))

/-! ## Mapping colors -/

/-- An entry at least distance, which gives the color back when that is in the palette. -/
structure MapsRight (colors : Palette) (col : Color) : Prop where
  lt : amOsdMapColor colors col < colors.length
  least : ∀ e ∈ colors, col.diff (colors.getD (amOsdMapColor colors col) default) ≤ col.diff e
  back : col ∈ colors → amOsdMapPixel colors (amOsdMapColor colors col) = some col

/-- The first entry is a nearest one. -/
def FirstNearest (colors : Palette) (col : Color) : Prop :=
  colors ≠ [] ∧ ∀ e ∈ colors, col.diff (colors.getD 0 default) ≤ col.diff e

theorem absDiff_eq_zero {x y : Byte} : absDiff x y = 0 ↔ x = y := by
  unfold absDiff
  rw [Int.natAbs_eq_zero]
  constructor
  · exact fun h => BitVec.eq_of_toNat_eq (by omega)
  · rintro rfl
    exact Int.sub_self _

theorem Color.diff_eq_zero {col e : Color} : col.diff e = 0 ↔ col = e := by
  unfold Color.diff
  constructor
  · intro h
    exact Color.ext (absDiff_eq_zero.mp (by omega)) (absDiff_eq_zero.mp (by omega))
      (absDiff_eq_zero.mp (by omega)) (absDiff_eq_zero.mp (by omega))
  · rintro rfl
    simp only [absDiff_eq_zero.mpr]

/-- Once it has seen the difference, the search does not go on from the index it has. -/
theorem searchLoop_cid {col pal : Color} {least : Nat} (h : least ≤ col.diff pal)
    (left i cid pix : Nat) : (searchLoop col pal left i cid least pix).1 = cid := by
  induction left generalizing i with
  | zero => rfl
  | succ left ih =>
    rw [searchLoop]
    split
    · rfl
    · rw [if_neg (by omega)]
      exact ih (i + 1)

/-- The result is always the first index. -/
theorem amOsdMapColor_eq (colors : Palette) (col : Color) : amOsdMapColor colors col = 0 := by
  unfold amOsdMapColor
  simp only
  cases colors.length with
  | zero => rfl
  | succ left =>
    rw [searchLoop]
    split
    · rfl
    · split
      · exact searchLoop_cid (Nat.le_refl _) _ _ _ _
      · exact searchLoop_cid (by omega) _ _ _ _

theorem mapsRight_iff (colors : Palette) (col : Color) :
    MapsRight colors col ↔ FirstNearest colors col := by
  constructor
  · intro h
    have hlt := h.lt
    have hleast := h.least
    rw [amOsdMapColor_eq] at hlt hleast
    exact ⟨List.ne_nil_of_length_pos hlt, hleast⟩
  · rintro ⟨hne, hleast⟩
    have hpos := List.length_pos_of_ne_nil hne
    refine ⟨?_, ?_, fun hmem => ?_⟩
    · rw [amOsdMapColor_eq]
      exact hpos
    · rw [amOsdMapColor_eq]
      exact hleast
    · have hzero : col.diff (colors.getD 0 default) = 0 := by
        have := hleast col hmem
        rw [Color.diff_eq_zero.mpr rfl] at this
        exact Nat.le_zero.mp this
      rw [amOsdMapColor_eq, amOsdMapPixel, if_neg (by omega), ← Color.diff_eq_zero.mp hzero]

/-- **The palette**: the calls set its entries as they say just when each is plain, and a color is
mapped right just when the first entry is a nearest one. -/
theorem palette_right_iff (colors : Palette) (calls : List SetCall) (palette : Palette)
    (col : Color) :
    (Held colors calls ↔ ∀ c ∈ calls, c.Plain colors.length) ∧
      (MapsRight palette col ↔ FirstNearest palette col) :=
  ⟨held_iff colors calls, mapsRight_iff palette col⟩

/-- Black and white, with a range that begins one below the palette, and white to be mapped. -/
theorem palette_not_right :
    ¬ Held [⟨0, 0, 0, 0⟩, ⟨0, 0, 0, 0⟩]
        [⟨fun i => BitVec.ofNat 8 i |> fun x => ⟨x, x, x, x⟩, -1, 2⟩] ∧
      ¬ MapsRight [⟨0, 0, 0, 0⟩, ⟨255, 255, 255, 255⟩] ⟨255, 255, 255, 255⟩ := by
  constructor
  · intro h
    have hstate := h 1 (Nat.le_refl _)
    exact absurd hstate (by decide)
  · intro h
    have hback := h.back (by decide)
    exact absurd hback (by decide)

end VendorAmlogic.Osd
