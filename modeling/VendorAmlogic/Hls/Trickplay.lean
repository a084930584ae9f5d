import VendorAmlogic.Hls.Playlist
import VendorAmlogic.Lib.Bytes
import VendorAmlogic.Lib.Halving

/-!
# Trick play over a list of I-frames

`m3u_session_ff_fb` of `hls_m3ulivesession.c` and the worker it starts. An
index that is in no list, a division by zero and a copy from no text have no
meaning. A list of I-frames has at most 2^30 entries (`in_dynarray_add` doubles
its allocation in an int), so the sum of two of their indices is an int.
-/

namespace VendorAmlogic.Hls

open VendorAmlogic.Lib

/-- `_frames_in_ff_fb`. -/
def framesInFfFb (factor : Int) : Int :=
  if factor = 2 ∨ factor = -2 then 1
  else if factor = 4 ∨ factor = -4 then 2
  else if factor = 8 ∨ factor = -8 then 4
  else if factor = 16 ∨ factor = -16 then 6
  else if factor = 32 ∨ factor = -32 then 8
  else if factor = 64 ∨ factor = -64 then 10
  else 1

/-- `_find_drop_interval`; the duration is cut to seconds. -/
def findDropInterval (durationUs speed iTotalNumber : Int) : Option Int := do
  let needNumber := framesInFfFb speed
  let totalInSpeed ←
    if durationUs ≠ 0 then
      if durationUs.tdiv 1000000 = 0 then none
      else some (i32 ((i32 (speed * iTotalNumber)).tdiv (durationUs.tdiv 1000000)))
    else some 0
  let dropNumber := i32 (totalInSpeed - needNumber)
  let dropInterval :=
    if 0 < dropNumber then
      if totalInSpeed.tmod dropNumber = 0 then totalInSpeed.tdiv dropNumber
      else (i32 (totalInSpeed + dropNumber)).tdiv dropNumber
    else 0
  some (if dropInterval = 1 then 2 else dropInterval)

/-- `iframe_node_list[index]`. -/
def iframeNode (nodes : List M3uIframeNode) (index : Int) : Option M3uIframeNode :=
  if index < 0 then none else nodes[index.toNat]?

/-- The loop of `_find_i_frame_index`; it is through after as many rounds as there are indices. -/
def halveNodes (nodes : List M3uIframeNode) (posUs : Int) : Nat → Int → Int → Option (Int × Int)
  | 0, a, b => if b - a > 1 then none else some (a, b)
  | rounds + 1, a, b =>
    if b - a > 1 then do
      let m := (a + b) / 2
      let node ← iframeNode nodes m
      let b := if posUs ≤ node.startUs then m else b
      let a := if node.startUs ≤ posUs then m else a
      halveNodes nodes posUs rounds a b
    else some (a, b)

/-- `_find_i_frame_index`; the start of the node it has found is logged. -/
def findIFrameIndex (nodes : List M3uIframeNode) (posUs mode : Int) : Option Int := do
  let (a, b) ← halveNodes nodes posUs (nodes.length + 1) (-1) nodes.length
  let a := if a = -1 then 0 else a
  let m := if mode = 1 then b else a
  if m = nodes.length then some (-1)
  else
    let _ ← iframeNode nodes m
    some m

/-- A round of the worker: the index, the segment, where it is, and whether it is fetched. -/
structure IframeVisit where
  index : Int
  segment : M3uIframeNode
  fileUrl : List Byte
  fetched : Bool
  deriving DecidableEq

/-- The loop of `_I_frame_data_download_worker` up to the interruption after `rounds` rounds; the
flag is `fffb_endflag`. -/
def iFrameLoop (nodes : List M3uIframeNode) (mode dropInterval : Int) :
    Nat → Int → Option (List IframeVisit × Bool)
  | 0, _ => some ([], false)
  | rounds + 1, index =>
    if (if mode = 1 then index < nodes.length else 0 ≤ index) then do
      let segment ← iframeNode nodes index
      let source ← iframeNode nodes segment.urlIndex
      let fileUrl ← source.uri
      let fetched := dropInterval = 0 ∨ segment.index.tmod dropInterval ≠ 0
      let next := if mode = 1 then index + 1 else index - 1
      let ended := if mode = 1 then next = nodes.length else next = 0
      let (visits, endflag) ← iFrameLoop nodes mode dropInterval rounds next
      some (⟨index, segment, fileUrl, fetched⟩ :: visits, ended || endflag)
    else some ([], false)

/-- What trick play has of a session; `iframeUrl` is that of the current variant stream. -/
structure FfFbSession where
  ffFbMode : Int
  ffFbSpeed : Int
  ffFbPosUs : Int
  ffFbRangeOffset : Int
  fffbEndflag : Bool
  durationUs : Int
  curSeqNum : Int
  isMediagroup : Bool
  iframeUrl : Option (List Byte)
  iframePlaylist : Option (List M3uIframeNode)
  playlist : M3UParser

/-- `_I_frame_data_download_worker`. -/
def iFrameDataDownloadWorker (s : FfFbSession) (rounds : Nat) :
    Option (List IframeVisit × Bool) := do
  let nodes ← s.iframePlaylist
  let index ← findIFrameIndex nodes s.ffFbPosUs s.ffFbMode
  let dropInterval ← findDropInterval s.durationUs s.ffFbSpeed nodes.length
  iFrameLoop nodes s.ffFbMode dropInterval rounds index

/-- The session after a call, what it returns, and whether the worker runs. A session with media
groups starts a worker that has no media item and returns at once. -/
structure FfFbCall where
  session : FfFbSession
  ret : Int
  worker : Bool

/-- The start of trick play, and a change of it. -/
def FfFbSession.restart (s : FfFbSession) (mode factor posUs : Int) : FfFbCall :=
  ⟨{ s with ffFbMode := mode, ffFbSpeed := factor, ffFbPosUs := posUs }, 0, ! s.isMediagroup⟩

/-- The end of trick play: the playback goes on in the segment of the I-frame. -/
def FfFbSession.finish (s : FfFbSession) (factor posUs : Int) : Option FfFbCall := do
  let nodes ← s.iframePlaylist
  let index ← findIFrameIndex nodes posUs s.ffFbMode
  let iframe ← iframeNode nodes index
  let source ← iframeNode nodes iframe.urlIndex
  let s := { s with
    ffFbMode := 0
    ffFbSpeed := factor
    ffFbPosUs := posUs
    fffbEndflag := false }
  match s.playlist.getNodeByUrl source.uri with
  | none => some ⟨s, 0, false⟩
  | some node =>
    let first ← s.playlist.getNodeByIndex 0
    some ⟨{ s with
      curSeqNum := i32 (node.index + first.mediaSequence)
      ffFbRangeOffset := iframe.readOffset }, 0, false⟩

/-- `m3u_session_ff_fb`. -/
def m3uSessionFfFb (s : FfFbSession) (mode factor posUs : Int) : Option FfFbCall :=
  if s.ffFbMode ≤ 0 ∧ 0 < mode then
    if s.iframeUrl.getD [] = [] ∨ s.iframePlaylist = none then some ⟨s, -1, false⟩
    else some ({ s with fffbEndflag := false }.restart mode factor posUs)
  else if 0 < s.ffFbMode ∧ 0 < mode then some (s.restart mode factor posUs)
  else if 0 < s.ffFbMode ∧ mode = 0 then s.finish factor posUs
  else some ⟨s, 0, false⟩

/-! ## The node at a position -/

section Search

variable {nodes : List M3uIframeNode} {posUs mode a b i j : Int} {node : M3uIframeNode}

/-- The nodes up to `a` start before the position. -/
def Below (nodes : List M3uIframeNode) (posUs a : Int) : Prop :=
  ∀ j node, iframeNode nodes j = some node → j ≤ a → node.startUs < posUs

/-- The nodes from `b` on start after the position. -/
def Above (nodes : List M3uIframeNode) (posUs b : Int) : Prop :=
  ∀ j node, iframeNode nodes j = some node → b ≤ j → posUs < node.startUs

/-- The node at `i` starts at the position. -/
def Exactly (nodes : List M3uIframeNode) (posUs i : Int) : Prop :=
  ∃ node, iframeNode nodes i = some node ∧ node.startUs = posUs

/-- **The node at a position**: of those that start exactly there the one that halving the list
comes to first; if there is none, forwards the first one after the position, and backwards the
last one before it, or the first one of all. -/
inductive StartsAt (nodes : List M3uIframeNode) (posUs mode i : Int) : Prop
  | exactly : Topmost (nodes.length + 1) (-1) nodes.length (Exactly nodes posUs) i →
      StartsAt nodes posUs mode i
  | after : mode = 1 → 0 ≤ i → i < nodes.length → Below nodes posUs (i - 1) → Above nodes posUs i →
      StartsAt nodes posUs mode i
  | before : mode ≠ 1 → 0 ≤ i → i < nodes.length → Below nodes posUs i → Above nodes posUs (i + 1) →
      StartsAt nodes posUs mode i
  | first : mode ≠ 1 → i = 0 → nodes ≠ [] → Above nodes posUs 0 → StartsAt nodes posUs mode i

theorem iframeNode_bounds (h : iframeNode nodes i = some node) : 0 ≤ i ∧ i < nodes.length := by
  unfold iframeNode at h
  split at h
  · cases h
  · obtain ⟨hlt, -⟩ := List.getElem?_eq_some_iff.mp h
    omega

theorem exists_iframeNode (h0 : 0 ≤ i) (h1 : i < nodes.length) :
    ∃ node, iframeNode nodes i = some node := by
  have hlt : i.toNat < nodes.length := by omega
  exact ⟨nodes[i.toNat], by rw [iframeNode, if_neg (by omega), List.getElem?_eq_getElem hlt]⟩

/-- The nodes are sorted by where they start. -/
def StartSorted (nodes : List M3uIframeNode) : Prop :=
  nodes.Pairwise fun x y => x.startUs ≤ y.startUs

theorem StartSorted.le (hs : StartSorted nodes) {x y : M3uIframeNode}
    (hx : iframeNode nodes i = some x) (hy : iframeNode nodes j = some y) (hij : i ≤ j) :
    x.startUs ≤ y.startUs := by
  have hi := iframeNode_bounds hx
  have hj := iframeNode_bounds hy
  rw [iframeNode, if_neg (by omega)] at hx hy
  obtain ⟨hxlt, rfl⟩ := List.getElem?_eq_some_iff.mp hx
  obtain ⟨hylt, rfl⟩ := List.getElem?_eq_some_iff.mp hy
  rcases Nat.lt_or_eq_of_le (show i.toNat ≤ j.toNat by omega) with hlt | heq
  · exact List.pairwise_iff_getElem.mp hs _ _ hxlt hylt hlt
  · simp only [heq, le_refl]

theorem halveNodes_done {rounds : Nat} (h : b - a ≤ 1) :
    halveNodes nodes posUs rounds a b = some (a, b) := by
  cases rounds with
  | zero => rw [halveNodes, if_neg (by omega)]
  | succ rounds => rw [halveNodes, if_neg (by omega)]

/-- **What the halving finds**: a node that starts exactly at the position, or two indices next to
each other with the position between them. -/
theorem halveNodes_spec (hs : StartSorted nodes) {rounds : Nat} (ha : -1 ≤ a) (hab : a < b)
    (hb : b ≤ nodes.length) (hrounds : b - a ≤ rounds + 1) (hbelow : Below nodes posUs a)
    (habove : Above nodes posUs b) :
    (∃ m, halveNodes nodes posUs rounds a b = some (m, m) ∧
        Topmost rounds a b (Exactly nodes posUs) m) ∨
      ∃ m, halveNodes nodes posUs rounds a b = some (m, m + 1) ∧ a ≤ m ∧ m + 1 ≤ b ∧
        Below nodes posUs m ∧ Above nodes posUs (m + 1) := by
  induction rounds generalizing a b with
  | zero =>
    obtain rfl : b = a + 1 := by omega
    exact .inr ⟨a, halveNodes_done (by omega), le_refl _, le_refl _, hbelow, habove⟩
  | succ rounds ih =>
    by_cases hwide : b - a > 1
    · have hlow : 0 ≤ (a + b) / 2 := by omega
      have hup : (a + b) / 2 < nodes.length := by omega
      obtain ⟨node, hnode⟩ := exists_iframeNode hlow hup
      rw [halveNodes, if_pos hwide]
      simp only [hnode, Option.bind_eq_bind, Option.bind_some]
      rcases lt_trichotomy node.startUs posUs with hlt | heq | hgt
      · rw [if_neg (not_le.mpr hlt), if_pos hlt.le]
        have hbelow' : Below nodes posUs ((a + b) / 2) := fun j other hother hj =>
          lt_of_le_of_lt (hs.le hother hnode hj) hlt
        have hhigh (j : Int) (hj : Exactly nodes posUs j) : (a + b) / 2 < j := by
          obtain ⟨other, hother, heq⟩ := hj
          by_contra hle
          have := hbelow' j other hother (by omega)
          omega
        rcases ih (by omega) (by omega) hb (by omega) hbelow' habove with
          ⟨m, hm, htop⟩ | ⟨m, hm, hlow, hup, hrest⟩
        · exact .inl ⟨m, hm, htop.high hhigh⟩
        · exact .inr ⟨m, hm, by omega, hup, hrest⟩
      · rw [if_pos heq.ge, if_pos heq.le]
        exact .inl ⟨_, halveNodes_done (by omega), topmost_mid ⟨node, hnode, heq⟩⟩
      · rw [if_pos hgt.le, if_neg (not_le.mpr hgt)]
        have habove' : Above nodes posUs ((a + b) / 2) := fun j other hother hj =>
          lt_of_lt_of_le hgt (hs.le hnode hother hj)
        have hunder (j : Int) (hj : Exactly nodes posUs j) : j < (a + b) / 2 := by
          obtain ⟨other, hother, heq⟩ := hj
          by_contra hle
          have := habove' j other hother (by omega)
          omega
        rcases ih ha (by omega) (by omega) (by omega) hbelow habove' with
          ⟨m, hm, htop⟩ | ⟨m, hm, hlow, hup, hrest⟩
        · exact .inl ⟨m, hm, htop.low hunder⟩
        · exact .inr ⟨m, hm, hlow, by omega, hrest⟩
    · obtain rfl : b = a + 1 := by omega
      exact .inr ⟨a, halveNodes_done (by omega), le_refl _, le_refl _, hbelow, habove⟩

/-- No node starts exactly at a position with the others to both sides of it. -/
theorem not_exactly {m : Int} (hbelow : Below nodes posUs m) (habove : Above nodes posUs (m + 1)) :
    ¬ Exactly nodes posUs i := by
  rintro ⟨node, hnode, heq⟩
  rcases lt_or_ge m i with hlt | hle
  · exact absurd (habove i node hnode (by omega)) (by omega)
  · exact absurd (hbelow i node hnode hle) (by omega)

/-- The bounds the halving ends with give the index. -/
theorem findIFrameIndex_eq {r : Int}
    (hm : halveNodes nodes posUs (nodes.length + 1) (-1) nodes.length = some (a, b))
    (hr : (if mode = 1 then b else if a = -1 then 0 else a) = r) (h0 : 0 ≤ r)
    (h1 : r ≤ nodes.length) :
    findIFrameIndex nodes posUs mode = some (if r = nodes.length then -1 else r) := by
  simp only [findIFrameIndex, hm, Option.bind_eq_bind, Option.bind_some, hr]
  by_cases hend : r = nodes.length
  · rw [if_pos hend, if_pos hend]
  · have hlt : r < nodes.length := lt_of_le_of_ne h1 hend
    obtain ⟨node, hnode⟩ := exists_iframeNode h0 hlt
    rw [if_neg hend, if_neg hend, hnode]
    rfl

/-- **What the search returns**: the node at the position, or -1 if there is none. -/
theorem findIFrameIndex_spec (hs : StartSorted nodes) (posUs mode : Int) :
    ∃ r, findIFrameIndex nodes posUs mode = some r ∧
      (StartsAt nodes posUs mode r ∧ 0 ≤ r ∧ r < nodes.length ∨
        r = -1 ∧ ∀ i, ¬ StartsAt nodes posUs mode i) := by
  have hbelow : Below nodes posUs (-1) := fun j node hnode hj =>
    absurd (iframeNode_bounds hnode).1 (by omega)
  have habove : Above nodes posUs nodes.length := fun j node hnode hj =>
    absurd (iframeNode_bounds hnode).2 (by omega)
  have hwide : (nodes.length : Int) - -1 ≤ (nodes.length + 1 : Nat) + 1 := by omega
  rcases halveNodes_spec hs (le_refl _) (by omega) (le_refl _) hwide hbelow habove with
    ⟨m, hm, htop⟩ | ⟨m, hm, hlow, hup, hunder, hover⟩
  · obtain ⟨node, hnode, -⟩ := htop.1
    obtain ⟨h0, h1⟩ := iframeNode_bounds hnode
    have hr : (if mode = 1 then m else if m = -1 then 0 else m) = m := by
      rw [if_neg (show ¬ m = -1 by omega), ite_self]
    have hfind := findIFrameIndex_eq hm hr h0 h1.le
    rw [if_neg (by omega)] at hfind
    exact ⟨m, hfind, .inl ⟨.exactly htop, h0, h1⟩⟩
  · have hnone (i : Int) : ¬ Exactly nodes posUs i := not_exactly hunder hover
    by_cases hmode : mode = 1
    · have hfind := findIFrameIndex_eq hm (if_pos hmode) (by omega) hup
      by_cases hend : m + 1 = nodes.length
      · rw [if_pos hend] at hfind
        refine ⟨-1, hfind, .inr ⟨rfl, fun i hi => ?_⟩⟩
        cases hi with
        | exactly htop => exact hnone i htop.1
        | after _ h0 h1 _ hafter =>
          obtain ⟨node, hnode⟩ := exists_iframeNode h0 h1
          have hgt := hafter i node hnode (le_refl _)
          exact absurd (hunder i node hnode (by omega)) (by omega)
        | before hne => exact hne hmode
        | first hne => exact hne hmode
      · rw [if_neg hend] at hfind
        exact ⟨m + 1, hfind, .inl ⟨.after hmode (by omega) (by omega) (by simpa using hunder) hover,
          by omega, by omega⟩⟩
    · by_cases hfirst : m = -1
      · have hfind := findIFrameIndex_eq hm ((if_neg hmode).trans (if_pos hfirst)) (le_refl _)
          (by omega)
        by_cases hnil : nodes = []
        · refine ⟨-1, by rw [hfind, hnil]; rfl, .inr ⟨rfl, fun i hi => ?_⟩⟩
          cases hi with
          | exactly htop => exact hnone i htop.1
          | after heq => exact hmode heq
          | before _ h0 h1 =>
            rw [hnil] at h1
            exact absurd h1 (by simpa using h0)
          | first _ _ hne => exact hne hnil
        · have hpos := List.length_pos_of_ne_nil hnil
          rw [if_neg (by omega)] at hfind
          subst hfirst
          exact ⟨0, hfind, .inl ⟨.first hmode rfl hnil hover, le_refl _, by omega⟩⟩
      · have hfind := findIFrameIndex_eq hm ((if_neg hmode).trans (if_neg hfirst)) (by omega)
          (by omega)
        rw [if_neg (by omega)] at hfind
        have hm0 : 0 ≤ m := by omega
        exact ⟨m, hfind, .inl ⟨.before hmode hm0 (by omega) hunder hover, hm0, by omega⟩⟩

/-- The nodes before `b` start before the position, and the others after it. -/
def SplitAt (nodes : List M3uIframeNode) (posUs b : Int) : Prop :=
  0 ≤ b ∧ b ≤ nodes.length ∧ Below nodes posUs (b - 1) ∧ Above nodes posUs b

theorem SplitAt.le (ha : SplitAt nodes posUs a) (hb : SplitAt nodes posUs b) : b ≤ a := by
  by_contra hlt
  obtain ⟨ha0, -, -, habove⟩ := ha
  obtain ⟨-, hb1, hbelow, -⟩ := hb
  have hlen : a < nodes.length := by omega
  obtain ⟨node, hnode⟩ := exists_iframeNode ha0 hlen
  exact absurd (habove a node hnode (le_refl _))
    (not_lt.mpr (hbelow a node hnode (by omega)).le)

/-- A node at a position is one that starts exactly there, or next to where the nodes are split. -/
theorem StartsAt.split (h : StartsAt nodes posUs mode i) :
    Topmost (nodes.length + 1) (-1) nodes.length (Exactly nodes posUs) i ∨
      ∃ b, SplitAt nodes posUs b ∧ i = if mode = 1 then b else max (b - 1) 0 := by
  cases h with
  | exactly htop => exact .inl htop
  | after hmode h0 h1 hbelow habove =>
    exact .inr ⟨i, ⟨h0, h1.le, hbelow, habove⟩, by rw [if_pos hmode]⟩
  | before hmode h0 h1 hbelow habove =>
    refine .inr ⟨i + 1, ⟨by omega, h1, by simpa using hbelow, habove⟩, ?_⟩
    rw [if_neg hmode]
    omega
  | first hmode h0 hnil habove =>
    refine .inr ⟨0, ⟨le_refl _, by omega, fun j node hnode hj => ?_, habove⟩, ?_⟩
    · exact absurd (iframeNode_bounds hnode).1 (by omega)
    · rw [if_neg hmode, h0]
      rfl

theorem StartsAt.unique (hi : StartsAt nodes posUs mode i) (hj : StartsAt nodes posUs mode j) :
    i = j := by
  rcases hi.split with hi | ⟨b, hb, rfl⟩
  · rcases hj.split with hj | ⟨b, ⟨-, -, hbelow, habove⟩, -⟩
    · exact hi.unique hj
    · exact absurd hi.1 (not_exactly hbelow (by simpa using habove))
  · rcases hj.split with hj | ⟨b', hb', rfl⟩
    · obtain ⟨-, -, hbelow, habove⟩ := hb
      exact absurd hj.1 (not_exactly hbelow (by simpa using habove))
    · rw [le_antisymm (hb'.le hb) (hb.le hb')]

theorem StartsAt.bounds (hs : StartSorted nodes) (h : StartsAt nodes posUs mode i) :
    0 ≤ i ∧ i < nodes.length := by
  obtain ⟨r, -, ⟨hr, hbounds⟩ | ⟨-, hnone⟩⟩ := findIFrameIndex_spec hs posUs mode
  · rwa [h.unique hr]
  · exact absurd h (hnone i)

theorem StartsAt.findIFrameIndex (hs : StartSorted nodes) (h : StartsAt nodes posUs mode i) :
    findIFrameIndex nodes posUs mode = some i := by
  obtain ⟨r, hfind, ⟨hr, -⟩ | ⟨-, hnone⟩⟩ := findIFrameIndex_spec hs posUs mode
  · rw [hfind, h.unique hr]
  · exact absurd h (hnone i)

/-- Forwards, no node from the one at the position on starts before it. -/
theorem StartsAt.le_startUs (h : StartsAt nodes posUs 1 i)
    (hnode : iframeNode nodes i = some node) : posUs ≤ node.startUs := by
  cases h with
  | exactly htop =>
    obtain ⟨other, hother, heq⟩ := htop.1
    obtain rfl : node = other := Option.some.inj (hnode.symm.trans hother)
    exact heq.ge
  | after _ _ _ _ habove => exact (habove i node hnode (le_refl _)).le
  | before hne => exact absurd rfl hne
  | first hne => exact absurd rfl hne

end Search

/-! ## The worker -/

section Worker

variable {nodes : List M3uIframeNode} {posUs mode dropInterval i : Int} {rounds : Nat}

/-- The division is by the seconds of the duration. -/
theorem findDropInterval_isSome (durationUs speed total : Int) :
    (findDropInterval durationUs speed total).isSome ↔
      durationUs = 0 ∨ 1000000 ≤ durationUs.natAbs := by
  have hdiv : durationUs.tdiv 1000000 = 0 ↔ ¬ 1000000 ≤ durationUs.natAbs := by
    have hsec : (durationUs.tdiv 1000000).natAbs = durationUs.natAbs / 1000000 :=
      Int.natAbs_tdiv durationUs 1000000
    omega
  unfold findDropInterval
  by_cases hzero : durationUs = 0
  · simp [hzero]
  · by_cases hlarge : 1000000 ≤ durationUs.natAbs
    · simp [hzero, hdiv, hlarge]
    · simp [hzero, hdiv, hlarge]

/-- The node at `i`, and the one that has its text. -/
def Linked (nodes : List M3uIframeNode) (i : Int) : Prop :=
  ∃ node source, iframeNode nodes i = some node ∧ iframeNode nodes node.urlIndex = some source ∧
    source.uri ≠ none

/-- The worker comes to the node at `i`. -/
def Going (nodes : List M3uIframeNode) (mode i : Int) : Prop :=
  if mode = 1 then i < nodes.length else 0 ≤ i

def nextIframe (mode i : Int) : Int := if mode = 1 then i + 1 else i - 1

/-- A round of the worker. -/
theorem iFrameLoop_succ (h : Going nodes mode i) :
    (iFrameLoop nodes mode dropInterval (rounds + 1) i).isSome ↔
      Linked nodes i ∧ (iFrameLoop nodes mode dropInterval rounds (nextIframe mode i)).isSome := by
  unfold Going at h
  rw [iFrameLoop, if_pos h, ← nextIframe, Linked]
  cases hnode : iframeNode nodes i with
  | none => simp
  | some node =>
    cases hsource : iframeNode nodes node.urlIndex with
    | none => simp [hsource]
    | some source =>
      cases huri : source.uri with
      | none => simp [hsource, huri]
      | some uri =>
        cases hrest : iFrameLoop nodes mode dropInterval rounds (nextIframe mode i) with
        | none => simp [hsource, huri, hrest]
        | some r => simp [hsource, huri, hrest]

/-- The worker stops. -/
theorem iFrameLoop_done (h : ¬ Going nodes mode i) :
    iFrameLoop nodes mode dropInterval rounds i = some ([], false) := by
  cases rounds with
  | zero => rfl
  | succ rounds => exact if_neg h

/-- Whenever the worker is interrupted, it has come to nothing without a meaning. -/
def Runs (nodes : List M3uIframeNode) (mode dropInterval i : Int) : Prop :=
  ∀ rounds, (iFrameLoop nodes mode dropInterval rounds i).isSome

theorem runs_step (h : Going nodes mode i) :
    Runs nodes mode dropInterval i ↔
      Linked nodes i ∧ Runs nodes mode dropInterval (nextIframe mode i) := by
  constructor
  · intro hruns
    exact ⟨((iFrameLoop_succ h).1 (hruns 1)).1, fun rounds =>
      ((iFrameLoop_succ h).1 (hruns (rounds + 1))).2⟩
  · rintro ⟨hlinked, hruns⟩ rounds
    cases rounds with
    | zero => rfl
    | succ rounds => exact (iFrameLoop_succ h).2 ⟨hlinked, hruns rounds⟩

theorem runs_done (h : ¬ Going nodes mode i) : Runs nodes mode dropInterval i := by
  intro rounds
  rw [iFrameLoop_done h]
  rfl

/-- Forwards, the worker comes to all nodes from `i` on. -/
theorem runs_forward (h : i ≤ nodes.length) :
    Runs nodes 1 dropInterval i ↔ ∀ j, i ≤ j → j < nodes.length → Linked nodes j := by
  obtain ⟨k, hk⟩ : ∃ k : Nat, i + k = nodes.length := ⟨(nodes.length - i).toNat, by omega⟩
  induction k generalizing i with
  | zero =>
    refine iff_of_true (runs_done ?_) fun j hij hj => absurd hj (by omega)
    rw [Going, if_pos rfl]
    omega
  | succ k ih =>
    have hgoing : Going nodes 1 i := by
      rw [Going, if_pos rfl]
      omega
    rw [runs_step hgoing, nextIframe, if_pos rfl, ih (by omega) (by omega)]
    constructor
    · rintro ⟨hhere, hrest⟩ j hij hj
      rcases eq_or_lt_of_le hij with rfl | hlt
      · exact hhere
      · exact hrest j hlt hj
    · intro hall
      exact ⟨hall i (le_refl _) (by omega), fun j hij hj => hall j (by omega) hj⟩

/-- Backwards, the worker comes to all nodes up to `i`. -/
theorem runs_backward (hmode : mode ≠ 1) (h : -1 ≤ i) :
    Runs nodes mode dropInterval i ↔ ∀ j, 0 ≤ j → j ≤ i → Linked nodes j := by
  obtain ⟨k, hk⟩ : ∃ k : Nat, i + 1 = k := ⟨(i + 1).toNat, by omega⟩
  induction k generalizing i with
  | zero =>
    refine iff_of_true (runs_done ?_) fun j h0 hj => absurd hj (by omega)
    rw [Going, if_neg hmode]
    omega
  | succ k ih =>
    have hgoing : Going nodes mode i := by
      rw [Going, if_neg hmode]
      omega
    rw [runs_step hgoing, nextIframe, if_neg hmode, ih (by omega) (by omega)]
    constructor
    · rintro ⟨hhere, hrest⟩ j h0 hj
      rcases eq_or_lt_of_le hj with rfl | hlt
      · exact hhere
      · exact hrest j h0 (by omega)
    · intro hall
      exact ⟨hall i (by omega) (le_refl _), fun j h0 hj => hall j h0 (by omega)⟩

/-- The indices from `first` on. -/
def upwards (nodes : List M3uIframeNode) (first : Nat) : List Int :=
  (List.range' first (nodes.length - first)).map Nat.cast

/-- Forwards, the worker visits the indices from its own on, until it is interrupted. -/
theorem iFrameLoop_visits {first : Nat} {r : List IframeVisit × Bool}
    (h : iFrameLoop nodes 1 dropInterval rounds first = some r) :
    r.1.map (·.index) = (upwards nodes first).take rounds := by
  induction rounds generalizing first r with
  | zero =>
    cases h
    rfl
  | succ rounds ih =>
    by_cases hgoing : Going nodes 1 first
    · have hlt : (first : Int) < nodes.length := by rwa [Going, if_pos rfl] at hgoing
      have hlen : nodes.length - first = (nodes.length - (first + 1)) + 1 := by omega
      unfold Going at hgoing
      rw [iFrameLoop, if_pos hgoing] at h
      simp only [Option.bind_eq_bind, Option.bind_eq_some_iff, if_true] at h
      obtain ⟨segment, -, source, -, uri, -, ⟨visits, endflag⟩, hrest, heq⟩ := h
      cases heq
      rw [upwards, hlen, List.range'_succ, List.map_cons, List.map_cons, List.take_succ_cons]
      exact congrArg _ (ih hrest)
    · have hle : nodes.length - first = 0 := by
        rw [Going, if_pos rfl] at hgoing
        omega
      rw [iFrameLoop_done hgoing] at h
      cases h
      rw [upwards, hle]
      rfl

end Worker

/-! ## The call -/

/-- The indices from the first node at or after the position on. -/
def fromPosition (nodes : List M3uIframeNode) (posUs : Int) : List Int :=
  upwards nodes (nodes.findIdx fun node => posUs ≤ node.startUs)

/-- The call has a result, and so has the worker that it starts, whenever that is interrupted;
forwards, the worker visits the nodes from the position on. -/
def FfFbRight (nodes : List M3uIframeNode) (s : FfFbSession) (mode factor posUs : Int) : Prop :=
  ∃ call, m3uSessionFfFb s mode factor posUs = some call ∧
    (call.worker = true → ∀ rounds, ∃ r, iFrameDataDownloadWorker call.session rounds = some r ∧
      (mode = 1 → r.1.map (·.index) = (fromPosition nodes posUs).take rounds))

/-- The duration can be divided by, and the worker comes to nodes of the list only that are linked
to a text. Forwards, there is a node at the position or after it, and it is the first of those that
start there. -/
def WorkerOk (nodes : List M3uIframeNode) (durationUs mode posUs : Int) : Prop :=
  (durationUs = 0 ∨ 1000000 ≤ durationUs.natAbs) ∧
    if mode = 1 then
      ∃ i, StartsAt nodes posUs mode i ∧ Below nodes posUs (i - 1) ∧
        ∀ j, i ≤ j → j < nodes.length → Linked nodes j
    else ∀ i, StartsAt nodes posUs mode i → ∀ j, 0 ≤ j → j ≤ i → Linked nodes j

/-- There is a node at the position, which names a node of the list; and a playlist with the text
of that one has a first segment. -/
def FinishOk (nodes : List M3uIframeNode) (playlist : M3UParser) (mode posUs : Int) : Prop :=
  ∃ i iframe source, StartsAt nodes posUs mode i ∧ iframeNode nodes i = some iframe ∧
    iframeNode nodes iframe.urlIndex = some source ∧
    (playlist.getNodeByUrl source.uri ≠ none → playlist.getNodeByIndex 0 ≠ none)

/-- The condition for a call, by what it does. -/
def FfFbOk (nodes : List M3uIframeNode) (s : FfFbSession) (mode posUs : Int) : Prop :=
  if s.ffFbMode ≤ 0 ∧ 0 < mode then
    s.iframeUrl.getD [] = [] ∨ s.isMediagroup = true ∨ WorkerOk nodes s.durationUs mode posUs
  else if 0 < s.ffFbMode ∧ 0 < mode then
    s.isMediagroup = true ∨ WorkerOk nodes s.durationUs mode posUs
  else if 0 < s.ffFbMode ∧ mode = 0 then FinishOk nodes s.playlist s.ffFbMode posUs
  else True

section Call

variable {nodes : List M3uIframeNode} {s : FfFbSession} {mode factor posUs i : Int}

theorem length_upwards (nodes : List M3uIframeNode) (first : Nat) :
    (upwards nodes first).length = nodes.length - first := by
  rw [upwards, List.length_map, List.length_range']

theorem upwards_inj {first first' : Nat} (hlt : first < nodes.length) :
    upwards nodes first = upwards nodes first' ↔ first' = first := by
  constructor
  · intro heq
    have hlen := congrArg List.length heq
    rw [length_upwards, length_upwards] at hlen
    omega
  · rintro rfl
    rfl

/-- The node at a position is the first one that does not start before it, unless another one that
starts there comes before. -/
theorem StartsAt.fromPosition_iff (hs : StartSorted nodes) {k : Nat}
    (h : StartsAt nodes posUs 1 k) :
    upwards nodes k = fromPosition nodes posUs ↔ Below nodes posUs ((k : Int) - 1) := by
  have hlt : k < nodes.length := by exact_mod_cast (h.bounds hs).2
  have hnode (j : Nat) (hj : j < nodes.length) : iframeNode nodes j = some nodes[j] := by
    rw [iframeNode, if_neg (by omega), Int.toNat_natCast, List.getElem?_eq_getElem hj]
  rw [fromPosition, upwards_inj hlt, List.findIdx_eq hlt]
  constructor
  · rintro ⟨-, hbefore⟩ j node hj hjk
    obtain ⟨h0, h1⟩ := iframeNode_bounds hj
    obtain ⟨m, rfl⟩ := Int.eq_ofNat_of_zero_le h0
    have hm : m < k := by omega
    obtain rfl : nodes[m] = node := Option.some.inj ((hnode m (by omega)).symm.trans hj)
    exact not_le.mp (of_decide_eq_false (hbefore m hm))
  · intro hbelow
    refine ⟨decide_eq_true (h.le_startUs (hnode k hlt)), fun j hj => decide_eq_false ?_⟩
    exact not_le.mpr (hbelow j nodes[j] (hnode j (by omega)) (by omega))

/-- The search in a list gives the node at the position, or -1. -/
def Found (nodes : List M3uIframeNode) (posUs mode i : Int) : Prop :=
  StartsAt nodes posUs mode i ∧ 0 ≤ i ∧ i < nodes.length ∨
    i = -1 ∧ ∀ j, ¬ StartsAt nodes posUs mode j

/-- Forwards from what the search gives; -1 is taken for an index. -/
theorem forward_iff (hs : StartSorted nodes) {dropInterval : Int} (hfound : Found nodes posUs 1 i) :
    (∀ rounds, ∃ r, iFrameLoop nodes 1 dropInterval rounds i = some r ∧
      r.1.map (·.index) = (fromPosition nodes posUs).take rounds) ↔
      ∃ i, StartsAt nodes posUs 1 i ∧ Below nodes posUs (i - 1) ∧
        ∀ j, i ≤ j → j < nodes.length → Linked nodes j := by
  rcases hfound with ⟨hstart, h0, h1⟩ | ⟨rfl, hnone⟩
  · obtain ⟨k, rfl⟩ := Int.eq_ofNat_of_zero_le h0
    constructor
    · intro h
      have hruns : Runs nodes 1 dropInterval k := fun rounds => by
        obtain ⟨r, hr, -⟩ := h rounds
        rw [hr]
        rfl
      have hvisits : upwards nodes k = fromPosition nodes posUs := by
        obtain ⟨r, hr, hindex⟩ := h nodes.length
        rw [iFrameLoop_visits hr] at hindex
        have htake (first : Nat) : (upwards nodes first).take nodes.length = upwards nodes first :=
          List.take_of_length_le (by rw [length_upwards]; omega)
        rwa [fromPosition, htake, htake] at hindex
      exact ⟨k, hstart, (hstart.fromPosition_iff hs).1 hvisits, (runs_forward h1.le).1 hruns⟩
    · rintro ⟨j, hj, hbelow, hlinked⟩ rounds
      obtain rfl : j = k := hj.unique hstart
      obtain ⟨r, hr⟩ := Option.isSome_iff_exists.mp ((runs_forward h1.le).2 hlinked rounds)
      exact ⟨r, hr, by rw [iFrameLoop_visits hr, (hstart.fromPosition_iff hs).2 hbelow]⟩
  · refine iff_of_false (fun h => ?_) (fun ⟨j, hj, _⟩ => hnone j hj)
    have hgoing : Going nodes 1 (-1) := by
      rw [Going, if_pos rfl]
      omega
    obtain ⟨r, hr, -⟩ := h 1
    have hsome : (iFrameLoop nodes 1 dropInterval 1 (-1)).isSome := by rw [hr]; rfl
    obtain ⟨⟨node, -, hnode, -⟩, -⟩ := (iFrameLoop_succ hgoing).1 hsome
    exact absurd (iframeNode_bounds hnode).1 (by omega)

/-- Backwards from what the search gives; -1 ends it. -/
theorem backward_iff {dropInterval : Int} (hmode : mode ≠ 1) (hfound : Found nodes posUs mode i) :
    Runs nodes mode dropInterval i ↔
      ∀ i, StartsAt nodes posUs mode i → ∀ j, 0 ≤ j → j ≤ i → Linked nodes j := by
  rcases hfound with ⟨hstart, h0, -⟩ | ⟨rfl, hnone⟩
  · rw [runs_backward hmode (by omega)]
    constructor
    · intro h j hj
      obtain rfl : j = i := hj.unique hstart
      exact h
    · intro h
      exact h i hstart
  · rw [runs_backward hmode (le_refl _)]
    exact iff_of_true (fun j h0 hj => absurd hj (by omega)) (fun j hj => absurd hj (hnone j))

/-- When the worker goes through, and forwards from the position on. -/
theorem worker_iff (hs : StartSorted nodes) (hnodes : s.iframePlaylist = some nodes) :
    (∀ rounds, ∃ r, iFrameDataDownloadWorker s rounds = some r ∧
      (s.ffFbMode = 1 → r.1.map (·.index) = (fromPosition nodes s.ffFbPosUs).take rounds)) ↔
      WorkerOk nodes s.durationUs s.ffFbMode s.ffFbPosUs := by
  obtain ⟨i, hfind, hfound⟩ := findIFrameIndex_spec hs s.ffFbPosUs s.ffFbMode
  rw [WorkerOk, ← findDropInterval_isSome s.durationUs s.ffFbSpeed nodes.length]
  cases hdrop : findDropInterval s.durationUs s.ffFbSpeed nodes.length with
  | none => simp [iFrameDataDownloadWorker, hnodes, hfind, hdrop]
  | some dropInterval =>
    have hworker (rounds : Nat) : iFrameDataDownloadWorker s rounds =
        iFrameLoop nodes s.ffFbMode dropInterval rounds i := by
      simp [iFrameDataDownloadWorker, hnodes, hfind, hdrop]
    simp only [hworker, Option.isSome_some, true_and]
    by_cases hmode : s.ffFbMode = 1
    · rw [if_pos hmode]
      rw [hmode] at hfound ⊢
      simp only [forall_const]
      exact forward_iff hs hfound
    · rw [if_neg hmode, ← backward_iff hmode hfound]
      simp only [hmode, false_implies, and_true, ← Option.isSome_iff_exists]
      rfl

/-- When the end of trick play has a result, at the node that the search gives. -/
theorem finish_isSome (hnodes : s.iframePlaylist = some nodes)
    (hfind : findIFrameIndex nodes posUs s.ffFbMode = some i) :
    (s.finish factor posUs).isSome ↔
      ∃ iframe source, iframeNode nodes i = some iframe ∧
        iframeNode nodes iframe.urlIndex = some source ∧
        (s.playlist.getNodeByUrl source.uri ≠ none → s.playlist.getNodeByIndex 0 ≠ none) := by
  unfold FfFbSession.finish
  simp only [hnodes, hfind, Option.bind_eq_bind, Option.bind_some]
  cases hiframe : iframeNode nodes i with
  | none => simp
  | some iframe =>
    cases hsource : iframeNode nodes iframe.urlIndex with
    | none => simp [hsource]
    | some source =>
      cases hnode : s.playlist.getNodeByUrl source.uri with
      | none => simp [hsource, hnode]
      | some node =>
        cases hfirst : s.playlist.getNodeByIndex 0 with
        | none => simp [hsource, hnode]
        | some first => simp [hsource, hnode]

theorem finish_iff (factor : Int) (hs : StartSorted nodes)
    (hnodes : s.iframePlaylist = some nodes) :
    (s.finish factor posUs).isSome ↔ FinishOk nodes s.playlist s.ffFbMode posUs := by
  obtain ⟨i, hfind, ⟨hstart, -⟩ | ⟨rfl, hnone⟩⟩ := findIFrameIndex_spec hs posUs s.ffFbMode
  · rw [finish_isSome hnodes hfind]
    constructor
    · rintro ⟨iframe, source, hrest⟩
      exact ⟨i, iframe, source, hstart, hrest⟩
    · rintro ⟨j, iframe, source, hj, hrest⟩
      obtain rfl : j = i := hj.unique hstart
      exact ⟨iframe, source, hrest⟩
  · rw [finish_isSome hnodes hfind]
    refine iff_of_false ?_ fun ⟨j, _, _, hj, _⟩ => hnone j hj
    rintro ⟨iframe, -, hiframe, -⟩
    exact absurd (iframeNode_bounds hiframe).1 (by omega)

/-- The end of trick play starts no worker. -/
theorem finish_worker {call : FfFbCall} (h : s.finish factor posUs = some call) :
    call.worker = false := by
  unfold FfFbSession.finish at h
  simp only [Option.bind_eq_bind, Option.bind_eq_some_iff] at h
  obtain ⟨nodes, -, index, -, iframe, -, source, -, h⟩ := h
  cases hnode : s.playlist.getNodeByUrl source.uri with
  | none =>
    rw [hnode] at h
    cases h
    rfl
  | some node =>
    rw [hnode] at h
    obtain ⟨first, -, h⟩ := Option.bind_eq_some_iff.mp h
    cases h
    rfl

/-- A call that starts the worker, unless the session has media groups. -/
theorem restart_iff (hs : StartSorted nodes) (hnodes : s.iframePlaylist = some nodes) :
    ((s.restart mode factor posUs).worker = true → ∀ rounds, ∃ r,
      iFrameDataDownloadWorker (s.restart mode factor posUs).session rounds = some r ∧
        (mode = 1 → r.1.map (·.index) = (fromPosition nodes posUs).take rounds)) ↔
      s.isMediagroup = true ∨ WorkerOk nodes s.durationUs mode posUs := by
  have hworker := worker_iff (s := (s.restart mode factor posUs).session) hs hnodes
  dsimp only [FfFbSession.restart] at hworker ⊢
  rw [hworker, Bool.not_eq_true', Classical.or_iff_not_imp_left, Bool.not_eq_true]

/-- **When trick play stays in the list**. -/
theorem ffFbRight_iff (hs : StartSorted nodes) (hnodes : s.iframePlaylist = some nodes) :
    FfFbRight nodes s mode factor posUs ↔ FfFbOk nodes s mode posUs := by
  unfold FfFbRight FfFbOk m3uSessionFfFb
  by_cases hstart : s.ffFbMode ≤ 0 ∧ 0 < mode
  · simp only [if_pos hstart]
    by_cases hurl : s.iframeUrl.getD [] = []
    · simp [hurl]
    · have hlist : ¬ (s.iframeUrl.getD [] = [] ∨ s.iframePlaylist = none) := by simp [hurl, hnodes]
      simp only [if_neg hlist, Option.some.injEq, exists_eq_left']
      rw [or_iff_right hurl]
      exact restart_iff hs hnodes
  · simp only [if_neg hstart]
    by_cases hgo : 0 < s.ffFbMode ∧ 0 < mode
    · simp only [if_pos hgo, Option.some.injEq, exists_eq_left']
      exact restart_iff hs hnodes
    · simp only [if_neg hgo]
      by_cases hend : 0 < s.ffFbMode ∧ mode = 0
      · simp only [if_pos hend]
        rw [← finish_iff factor hs hnodes, Option.isSome_iff_exists]
        refine exists_congr fun call => and_iff_left_of_imp fun hcall hworker => ?_
        rw [finish_worker hcall] at hworker
        cases hworker
      · simp [hend]

end Call

/-- An I-frame with its text. -/
def iframeAt (startUs index : Int) : M3uIframeNode :=
  ⟨startUs, 1000000, 0, -1, index, index, some (bytes "a.ts")⟩

def threeIframes : List M3uIframeNode := [iframeAt 0 0, iframeAt 1000000 1, iframeAt 2000000 2]

/-- A session of a duration with three I-frames, before trick play. -/
def iframeSession (durationUs : Int) : FfFbSession :=
  ⟨-1, 0, 0, -1, false, durationUs, 0, false, some (bytes "i.m3u8"), some threeIframes,
    ⟨false, true, true, true, 0, 0, durationUs, [], [], []⟩⟩

/-- Forwards from half a second on. -/
theorem ffFbRight_half : FfFbRight threeIframes (iframeSession 3000000) 1 2 500000 := by
  have hbelow : Below threeIframes 500000 (1 - 1) := by
    intro j node hnode hj
    have h0 := (iframeNode_bounds hnode).1
    obtain rfl : j = 0 := by omega
    cases hnode
    decide
  have habove : Above threeIframes 500000 1 := by
    intro j node hnode hj
    have h1 : j < 3 := (iframeNode_bounds hnode).2
    obtain rfl | rfl : j = 1 ∨ j = 2 := by omega
    · cases hnode
      decide
    · cases hnode
      decide
  have hlinked (j : Int) (hj : 1 ≤ j) (hlt : j < 3) : Linked threeIframes j := by
    obtain rfl | rfl : j = 1 ∨ j = 2 := by omega
    · exact ⟨_, _, rfl, rfl, by decide⟩
    · exact ⟨_, _, rfl, rfl, by decide⟩
  have hstart : StartsAt threeIframes 500000 1 1 :=
    .after rfl (by decide) (by decide) hbelow habove
  exact (ffFbRight_iff (by unfold StartSorted; decide) rfl).2
    (.inr (.inr ⟨.inr (by decide), 1, hstart, hbelow, hlinked⟩))

/-- **A live session**: its duration of -1 is no second. -/
theorem not_ffFbRight_live : ¬ FfFbRight threeIframes (iframeSession (-1)) 1 2 1000000 := by
  rintro ⟨call, hcall, hworker⟩
  obtain rfl := Option.some.inj hcall
  obtain ⟨r, hr, -⟩ := hworker rfl 0
  cases hr

end VendorAmlogic.Hls
