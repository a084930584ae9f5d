import VendorAmlogic.Hls.Playlist

/-!
# Tracks of a master playlist

The tracks are the items of all media groups, numbered through the list of the
groups, `hls_main/hls_m3uparser.c`. Each function finds the group of a number
by a walk of its own. `m3u_get_selected_track` does not count the groups of the
type that it is asked for, so its numbers are right only for the first of them.
-/

namespace VendorAmlogic.Hls

open VendorAmlogic.Lib

/-- `MediaTrackType`. -/
inductive MediaTrackType where
  | unknown
  | video
  | audio
  | timedtext
  | subtitle
  deriving DecidableEq

structure M3uTrackInfo where
  trackType : MediaTrackType
  trackLang : Option (List Byte)
  trackMime : Option (List Byte)
  trackAuto : Bool
  trackDefault : Bool
  trackForced : Bool
  deriving DecidableEq

/-! ## The source -/

/-- `get_mediaItem_in_group`; a negative index asks for the selected item, or the default one. -/
def M3uMediaGroup.getMediaItem (g : M3uMediaGroup) (indexToSelect : Int) : Option M3uMediaItem :=
  if indexToSelect ≥ 0 then g.itemHead[indexToSelect.toNat]?
  else if g.selectedIndex ≥ 0 then (g.itemHead[g.selectedIndex.toNat]?).or g.itemHead.head?
  else (g.itemHead.find? (·.flagDefault)).or g.itemHead.head?

/-- The type of the tracks of a group. -/
def MediaType.trackType : MediaType → MediaTrackType
  | .audio => .audio
  | .video => .video
  | .subs => .subtitle
  | .cc => .unknown

/-- The type of the groups with tracks of a type. -/
def MediaTrackType.mediaType : MediaTrackType → Option MediaType
  | .audio => some .audio
  | .video => some .video
  | .subtitle => some .subs
  | _ => none

/-- What there is to say of an item in a group of this type. -/
def M3uMediaItem.trackInfo (item : M3uMediaItem) (type : MediaType) : M3uTrackInfo where
  trackType := type.trackType
  trackLang := if item.language = [] then none else some item.language
  trackMime := if type = .subs then some (bytes "text/vtt") else none
  trackAuto := type = .subs && item.flagAutoselect
  trackDefault := type = .subs && item.flagDefault
  trackForced := type = .subs && item.flagForced

/-- `get_trackInfo_in_group`. -/
def M3uMediaGroup.getTrackInfo (g : M3uMediaGroup) (index : Int) : Option M3uTrackInfo :=
  (g.getMediaItem index).map (·.trackInfo g.type)

/-- `m3u_get_track_count`. -/
def getTrackCount : List M3uMediaGroup → Int
  | [] => 0
  | g :: gs => g.itemHead.length + getTrackCount gs

/-- `m3u_get_track_info`. -/
def getTrackInfo : List M3uMediaGroup → Int → Option M3uTrackInfo
  | [], _ => none
  | g :: gs, index =>
    if index < g.itemHead.length then g.getTrackInfo index
    else getTrackInfo gs (index - g.itemHead.length)

/-- The branch of `m3u_select_track` for the group of the track. -/
def M3uMediaGroup.selectItem (g : M3uMediaGroup) (index : Int) (select : Bool) :
    Int × M3uMediaGroup :=
  if select then
    if g.selectedIndex = index then (-1, g) else (0, { g with selectedIndex := index })
  else if g.selectedIndex ≠ index then (-1, g)
  else (0, { g with selectedIndex := -1 })

/-- `m3u_select_track`. -/
def selectTrack (select : Bool) : List M3uMediaGroup → Int → Int × List M3uMediaGroup
  | [], _ => (-1, [])
  | g :: gs, index =>
    if index < g.itemHead.length then
      let r := g.selectItem index select
      (r.1, r.2 :: gs)
    else
      let r := selectTrack select gs (index - g.itemHead.length)
      (r.1, g :: r.2)

/-- The loop of `m3u_get_selected_track`. -/
def selectedLoop (type : MediaType) : List M3uMediaGroup → Int → Int
  | [], _ => -1
  | g :: gs, selectedIndex =>
    if g.type ≠ type then selectedLoop type gs (selectedIndex + g.itemHead.length)
    else if g.selectedIndex ≥ 0 then selectedIndex + g.selectedIndex
    else selectedLoop type gs selectedIndex

/-- `m3u_get_selected_track`. -/
def getSelectedTrack (gs : List M3uMediaGroup) (type : MediaTrackType) : Int :=
  match type.mediaType with
  | some t => selectedLoop t gs 0
  | none => -1

/-! ## The walks -/

/-- The items of the groups of other types. -/
def otherCount (type : MediaType) : List M3uMediaGroup → Int
  | [] => 0
  | g :: gs => (if g.type = type then 0 else (g.itemHead.length : Int)) + otherCount type gs

/-- No group of the type has a selection. -/
def Unselected (type : MediaType) (gs : List M3uMediaGroup) : Prop :=
  ∀ g ∈ gs, g.type = type → g.selectedIndex < 0

instance (type : MediaType) (gs : List M3uMediaGroup) : Decidable (Unselected type gs) :=
  inferInstanceAs (Decidable (∀ g ∈ gs, _))

section
variable {type : MediaType} {pre post gs : List M3uMediaGroup} {g : M3uMediaGroup} {k : Nat}

theorem getTrackCount_nonneg (gs : List M3uMediaGroup) : 0 ≤ getTrackCount gs := by
  induction gs with
  | nil => exact Int.le_refl 0
  | cons g gs ih =>
    rw [getTrackCount]
    omega

theorem otherCount_le (type : MediaType) (gs : List M3uMediaGroup) :
    otherCount type gs ≤ getTrackCount gs := by
  induction gs with
  | nil => exact Int.le_refl 0
  | cons g gs ih =>
    rw [otherCount, getTrackCount]
    split <;> omega

/-- What the walk leaves out are the items of the type. -/
theorem otherCount_eq_iff :
    otherCount type gs = getTrackCount gs ↔ ∀ g ∈ gs, g.type = type → g.itemHead = [] := by
  induction gs with
  | nil => exact iff_of_true rfl (List.forall_mem_nil _)
  | cons g gs ih =>
    have hgs := otherCount_le type gs
    rw [List.forall_mem_cons, ← List.length_eq_zero_iff, otherCount, getTrackCount, Iff.comm]
    refine (and_congr_right fun _ => ih.symm).trans ?_
    split
    · rename_i htype
      simp only [htype, true_imp_iff]
      omega
    · rename_i htype
      simp only [htype, false_imp_iff, true_and]
      omega

/-- A walk to the group of a track, where `index` counts from the group on. -/
theorem getTrackInfo_append (index : Int) (h : 0 ≤ index) :
    getTrackInfo (pre ++ gs) (getTrackCount pre + index) = getTrackInfo gs index := by
  induction pre with
  | nil => rw [getTrackCount, Int.zero_add, List.nil_append]
  | cons g pre ih =>
    have hpre := getTrackCount_nonneg pre
    rw [List.cons_append, getTrackInfo, getTrackCount, if_neg (by omega), ← ih]
    congr 1
    omega

theorem selectTrack_append (select : Bool) (index : Int) (h : 0 ≤ index) :
    selectTrack select (pre ++ gs) (getTrackCount pre + index) =
      ((selectTrack select gs index).1, pre ++ (selectTrack select gs index).2) := by
  induction pre with
  | nil => rw [getTrackCount, Int.zero_add, List.nil_append, List.nil_append]
  | cons g pre ih =>
    have hpre := getTrackCount_nonneg pre
    have hrest : (g.itemHead.length : Int) + getTrackCount pre + index - g.itemHead.length =
        getTrackCount pre + index := by omega
    rw [List.cons_append, selectTrack, getTrackCount, if_neg (by omega), hrest, ih]
    rfl

theorem selectTrack_at (select : Bool) (hk : k < g.itemHead.length) :
    selectTrack select (pre ++ g :: post) (getTrackCount pre + k) =
      ((g.selectItem k select).1, pre ++ (g.selectItem k select).2 :: post) := by
  rw [selectTrack_append select k (Int.natCast_nonneg k), selectTrack, if_pos (by omega)]

theorem getTrackInfo_at {item : M3uMediaItem} (hitem : g.itemHead[k]? = some item) :
    getTrackInfo (pre ++ g :: post) (getTrackCount pre + k) = some (item.trackInfo g.type) := by
  obtain ⟨hk, -⟩ := List.getElem?_eq_some_iff.mp hitem
  rw [getTrackInfo_append k (Int.natCast_nonneg k), getTrackInfo, if_pos (by omega),
    M3uMediaGroup.getTrackInfo, M3uMediaGroup.getMediaItem, if_pos (Int.natCast_nonneg k),
    Int.toNat_natCast, hitem, Option.map_some]

/-- Groups without a selection of the type. -/
theorem selectedLoop_append (h : Unselected type pre) (selectedIndex : Int) :
    selectedLoop type (pre ++ gs) selectedIndex =
      selectedLoop type gs (selectedIndex + otherCount type pre) := by
  induction pre generalizing selectedIndex with
  | nil => rw [List.nil_append, otherCount, Int.add_zero]
  | cons g pre ih =>
    obtain ⟨hg, hpre⟩ := List.forall_mem_cons.mp h
    rw [List.cons_append, selectedLoop, otherCount]
    by_cases htype : g.type = type
    · have := hg htype
      rw [if_neg (not_not.mpr htype), if_neg (by omega), if_pos htype, ih hpre, Int.zero_add]
    · rw [if_pos htype, if_neg htype, ih hpre, Int.add_assoc]

theorem selectedLoop_unselected (h : Unselected type gs) (selectedIndex : Int) :
    selectedLoop type gs selectedIndex = -1 := by
  rw [← List.append_nil gs, selectedLoop_append h, selectedLoop]

/-- The number that is found for a selected item. -/
theorem getSelectedTrack_at (hpre : Unselected g.type pre) (htype : g.type ≠ .cc)
    (hsel : g.selectedIndex = k) :
    getSelectedTrack (pre ++ g :: post) g.type.trackType = otherCount g.type pre + k := by
  have hmedia : g.type.trackType.mediaType = some g.type := by
    cases h : g.type with
    | cc => exact absurd h htype
    | _ => rfl
  rw [getSelectedTrack, hmedia]
  dsimp only
  rw [selectedLoop_append hpre, selectedLoop, if_neg (not_not.mpr rfl),
    if_pos (by omega), hsel, Int.zero_add]

theorem getSelectedTrack_unselected (h : Unselected type gs) :
    getSelectedTrack gs type.trackType = -1 := by
  cases type with
  | cc => rfl
  | audio => exact selectedLoop_unselected h 0
  | video => exact selectedLoop_unselected h 0
  | subs => exact selectedLoop_unselected h 0

end

/-- Every number below the count is that of an item. -/
theorem exists_track {gs : List M3uMediaGroup} {i : Int} (h0 : 0 ≤ i) (hi : i < getTrackCount gs) :
    ∃ pre g post k item, gs = pre ++ g :: post ∧ g.itemHead[k]? = some item ∧
      i = getTrackCount pre + (k : Nat) := by
  induction gs generalizing i with
  | nil =>
    rw [getTrackCount] at hi
    omega
  | cons g gs ih =>
    rw [getTrackCount] at hi
    by_cases hlt : i < g.itemHead.length
    · refine ⟨[], g, gs, i.toNat, g.itemHead[i.toNat], rfl, List.getElem?_eq_getElem (by omega), ?_⟩
      rw [getTrackCount]
      omega
    · obtain ⟨pre, g', post, k, item, rfl, hitem, heq⟩ :=
        ih (i := i - g.itemHead.length) (by omega) (by omega)
      refine ⟨g :: pre, g', post, k, item, rfl, hitem, ?_⟩
      rw [getTrackCount]
      omega

/-! ## Selecting a track -/

/-- The track `i`, item `k` of a group, in the groups after it was selected: its type has it as the
selected one, it is the one that is told of, and when it is unselected there is none. -/
def TrackSelected (gs : List M3uMediaGroup) (i : Int) (type : MediaType) (item : M3uMediaItem) :
    Prop :=
  getSelectedTrack gs type.trackType = i ∧ getTrackInfo gs i = some (item.trackInfo type) ∧
    ∀ gs', selectTrack false gs i = (0, gs') → getSelectedTrack gs' type.trackType = -1

/-- **The number of a selected track** is the one that it was selected by, exactly if its type can
be asked for and no other track of it is before its group. -/
theorem trackSelected_iff {pre post gs : List M3uMediaGroup} {g : M3uMediaGroup} {k : Nat}
    {item : M3uMediaItem} (hitem : g.itemHead[k]? = some item)
    (hother : Unselected g.type (pre ++ post))
    (hsel : selectTrack true (pre ++ g :: post) (getTrackCount pre + k) = (0, gs)) :
    TrackSelected gs (getTrackCount pre + k) g.type item ↔
      g.type ≠ .cc ∧ ∀ g' ∈ pre, g'.type = g.type → g'.itemHead = [] := by
  obtain ⟨hk, -⟩ := List.getElem?_eq_some_iff.mp hitem
  obtain ⟨hpre, hpost⟩ := List.forall_mem_append.mp hother
  have hgs : gs = pre ++ { g with selectedIndex := k } :: post := by
    rw [selectTrack_at true hk] at hsel
    obtain ⟨hret, rfl⟩ := Prod.mk.inj hsel
    unfold M3uMediaGroup.selectItem at hret ⊢
    rw [if_pos rfl] at hret ⊢
    split at hret
    · cases hret
    · rename_i hne
      rw [if_neg hne]
  have hinfo : getTrackInfo gs (getTrackCount pre + k) = some (item.trackInfo g.type) := by
    rw [hgs]
    exact getTrackInfo_at (g := { g with selectedIndex := k }) hitem
  have hnone : ∀ gs', selectTrack false gs (getTrackCount pre + k) = (0, gs') →
      getSelectedTrack gs' g.type.trackType = -1 := by
    intro gs' h
    rw [hgs, selectTrack_at (g := { g with selectedIndex := k }) false hk] at h
    obtain ⟨-, rfl⟩ := Prod.mk.inj h
    refine getSelectedTrack_unselected (List.forall_mem_append.mpr ⟨hpre, ?_⟩)
    refine List.forall_mem_cons.mpr ⟨fun _ => ?_, hpost⟩
    simp [M3uMediaGroup.selectItem]
  have hnonneg := getTrackCount_nonneg pre
  by_cases htype : g.type = .cc
  · refine iff_of_false (fun h => ?_) fun h => h.1 htype
    have h1 := h.1
    rw [htype] at h1
    have hcc : getSelectedTrack gs MediaType.cc.trackType = -1 := rfl
    omega
  · have hnum : getSelectedTrack gs g.type.trackType = otherCount g.type pre + k := by
      rw [hgs]
      exact getSelectedTrack_at (g := { g with selectedIndex := k }) hpre htype rfl
    rw [TrackSelected, hnum, ← otherCount_eq_iff]
    constructor
    · rintro ⟨h, -, -⟩
      exact ⟨htype, by omega⟩
    · rintro ⟨-, h⟩
      exact ⟨by omega, hinfo, hnone⟩

/-- A group of audio tracks without a selection. -/
def audioGroup (groupId : List Byte) (n : Nat) : M3uMediaGroup where
  type := .audio
  groupId := groupId
  selectedIndex := -1
  itemHead := List.replicate n ⟨[], [], [], false, false, false, false, false⟩

/-- The second of two tracks of a playlist with one group. -/
theorem trackSelected_oneGroup :
    TrackSelected [{ audioGroup (bytes "a") 2 with selectedIndex := 1 }] 1 .audio
      ⟨[], [], [], false, false, false, false, false⟩ :=
  (@trackSelected_iff [] [] _ (audioGroup (bytes "a") 2) 1 _ rfl (by decide) (by decide)).mpr
    ⟨by decide, List.forall_mem_nil _⟩

/-- **The second of two groups**: its track is found under the number of one of the first. -/
theorem trackSelected_twoGroups :
    (selectTrack true [audioGroup (bytes "a") 1, audioGroup (bytes "b") 1] 1).1 = 0 ∧
      ¬ TrackSelected (selectTrack true [audioGroup (bytes "a") 1, audioGroup (bytes "b") 1] 1).2 1
        .audio ⟨[], [], [], false, false, false, false, false⟩ := by
  refine ⟨by decide, fun h => ?_⟩
  exact absurd h.1 (by decide)

end VendorAmlogic.Hls
