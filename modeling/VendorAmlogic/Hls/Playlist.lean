import VendorAmlogic.Lib.CString

/-!
# HLS playlists

The data of `hls_main/hls_m3uparser.h`, and the searches in the list of nodes
of `hls_m3uparser.c`. Texts are C strings: lists of bytes without a zero byte.
-/

namespace VendorAmlogic.Hls

open VendorAmlogic.Lib

structure M3uKeyInfo where
  keyUrl : List Byte
  method : List Byte
  iv : List Byte
  deriving DecidableEq

/-- A segment, or a variant stream; the bits of `flags` are fields of their own. -/
structure M3uBaseNode where
  index : Int
  fileUrl : List Byte
  iframeUrl : List Byte
  audioGroupId : List Byte
  videoGroupId : List Byte
  subGroupId : List Byte
  codec : List Byte
  bandwidth : Int
  programId : Int
  startUs : Int
  durationUs : Int
  readOffset : Int
  fileSize : Int
  mediaSequence : Int
  discontinue : Bool
  allowCache : Bool
  cipherInfo : Bool
  key : Option M3uKeyInfo
  deriving DecidableEq

/-- `memset(node, 0, sizeof(M3uBaseNode))`. -/
def M3uBaseNode.zero : M3uBaseNode :=
  ⟨0, [], [], [], [], [], [], 0, 0, 0, 0, 0, 0, 0, false, false, false, none⟩

structure M3uIframeNode where
  startUs : Int
  durationUs : Int
  readOffset : Int
  fileSize : Int
  index : Int
  urlIndex : Int
  uri : Option (List Byte)
  deriving DecidableEq

inductive MediaType where
  | audio
  | video
  | subs
  | cc
  deriving DecidableEq

/-- The bits of `flags` are fields of their own. -/
structure M3uMediaItem where
  name : List Byte
  mediaUrl : List Byte
  language : List Byte
  flagAutoselect : Bool
  flagDefault : Bool
  flagForced : Bool
  flagHasLanguage : Bool
  flagHasUri : Bool
  deriving DecidableEq

/-- The last item that was added is the first one. -/
structure M3uMediaGroup where
  type : MediaType
  groupId : List Byte
  selectedIndex : Int
  itemHead : List M3uMediaItem
  deriving DecidableEq

/-- A playlist. The last node that was added is the first of `head`, and so for the groups. -/
structure M3UParser where
  isVariantPlaylist : Bool
  isExtm3u : Bool
  isComplete : Bool
  isInitcheck : Bool
  targetDuration : Int
  baseNodeNum : Int
  durationUs : Int
  iframeNodeList : List M3uIframeNode
  head : List M3uBaseNode
  mediaGroupHead : List M3uMediaGroup
  deriving DecidableEq

namespace M3UParser

/-- `m3u_get_node_by_index`. -/
def getNodeByIndex (p : M3UParser) (index : Int) : Option M3uBaseNode :=
  if index > p.baseNodeNum - 1 ∨ index < 0 then none
  else p.head.reverse.find? fun n => n.index = index

/-- The nodes are numbered in the order in which they came. -/
structure Indexed (p : M3UParser) : Prop where
  num : p.baseNodeNum = p.head.length
  index : ∀ (i : Nat) (h : i < p.head.reverse.length), p.head.reverse[i].index = i

/-- A node is found at its place. -/
theorem Indexed.getNodeByIndex {p : M3UParser} (h : p.Indexed) {i : Nat}
    (hi : i < p.head.reverse.length) : p.getNodeByIndex i = some p.head.reverse[i] := by
  have hnum := h.num
  have hlen : p.head.reverse.length = p.head.length := List.length_reverse
  unfold M3UParser.getNodeByIndex
  rw [if_neg (by omega)]
  apply List.find?_eq_some_iff_getElem.mpr
  refine ⟨decide_eq_true (h.index i hi), i, hi, rfl, fun j hj => ?_⟩
  have := h.index j (by omega)
  simp only [this, Bool.not_eq_eq_eq_not, Bool.not_true, decide_eq_false_iff_not]
  omega

/-- `m3u_get_node_by_time`. -/
def getNodeByTime (p : M3UParser) (timeUs : Int) : Option M3uBaseNode :=
  if timeUs < 0 then none
  else p.head.find? fun n => n.startUs ≤ timeUs ∧ timeUs < i64 (n.startUs + n.durationUs)

/-- What `get_node_by_url` looks for: the URL from the first slash behind `://`. -/
def relativeUrl (srcurl : List Byte) : List Byte :=
  match strstr (bytes "://") srcurl with
  | none => srcurl
  | some start => (strchr 0x2f (start.drop 3)).getD srcurl

theorem relativeUrl_suffix (srcurl : List Byte) : relativeUrl srcurl <:+ srcurl := by
  unfold relativeUrl
  split
  · exact List.suffix_refl srcurl
  · rename_i start hstart
    cases hslash : strchr 0x2f (start.drop 3) with
    | none => exact List.suffix_refl srcurl
    | some slash =>
      exact (strchr_suffix hslash).trans ((List.drop_suffix 3 start).trans (strstr_suffix hstart))

/-- `m3u_get_node_by_url`. -/
def getNodeByUrl (p : M3UParser) (srcurl : Option (List Byte)) : Option M3uBaseNode :=
  match srcurl with
  | none => none
  | some srcurl => p.head.find? fun n => (strstr (relativeUrl srcurl) n.fileUrl).isSome

end M3UParser

end VendorAmlogic.Hls
