import VendorAmlogic.Lib.Run
import VendorAmlogic.Hls.Fetch

/-!
# The session: which segment is next

`_download_next_segment` and the playlist of `_refresh_playlist`,
`hls_main/hls_m3ulivesession.c`. The position in the stream is kept as a number
and, for a live stream, as the URL of the last segment. There is no result
where the code would access `NULL`. Playlists of I frames are left out.
-/

namespace VendorAmlogic.Hls

open VendorAmlogic.Lib

/-- `written` is all that was written to the cache. -/
structure Session where
  playlist : Option M3UParser
  curSeqNum : Int
  lastSegmentUrl : Option (List Byte)
  isLivemode : Bool
  liveMode : Bool
  seektimeUs : Int
  written : List Byte

/-- The settings `libplayer.hls.segment_switch`, `media.hls.range_type` and
`libplayer.hls.openretry`, the servers, and what happens in a download. -/
structure DownloadEnv where
  segmentSwitch : Int
  rangeType : Int
  openretry : Nat
  server : List Byte → Server
  events : List FetchEvent

/-- The number of the segment behind the one with the last URL. -/
def Session.behindLast (s : Session) (p : M3UParser) (first : Int) : Option Int :=
  (p.getNodeByUrl s.lastSegmentUrl).map fun n => i32 (first + n.index + 1)

/-- `cur_seq_num` is set by the playlist, which starts with the number `first`. -/
def Session.resync (s : Session) (segmentSwitch : Int) (p : M3UParser) (first : Int) : Int :=
  if s.curSeqNum < first then (s.behindLast p first).getD first
  else if s.isLivemode ∧ s.liveMode = false ∧ s.curSeqNum - first ≤ p.baseNodeNum - 1 then
    if segmentSwitch = 0 then (s.behindLast p first).getD s.curSeqNum else s.curSeqNum
  else if s.isLivemode ∧ s.liveMode = false ∧ s.curSeqNum ≥ first + p.baseNodeNum then
    (s.behindLast p first).getD s.curSeqNum
  else s.curSeqNum

/-- `cur_seq_num`, `seektimeUs` and the node of the segment that is next. -/
def Session.nextNode (s : Session) (p : M3UParser) (first cur : Int) :
    Int × Int × Option M3uBaseNode :=
  if p.isComplete ∧ s.isLivemode = false ∧ s.seektimeUs ≥ 0 then
    match p.getNodeByTime s.seektimeUs with
    | some n => (i32 (first + n.index), -1, some n)
    | none => (cur, -1, p.getNodeByIndex (cur - first))
  else (cur, s.seektimeUs, p.getNodeByIndex (cur - first))

/-- A node of the playlist has changed. -/
def M3UParser.setNode (p : M3UParser) (node : M3uBaseNode) : M3UParser :=
  { p with head := p.head.map fun n => if n.index = node.index then node else n }

/-- Whether a segment is fetched as one of a live stream. -/
def Session.fetchesLive (s : Session) (p : M3UParser) : Bool :=
  decide (p.isComplete = false ∧ s.liveMode = false)

/-- Whether the nodes of the playlist keep what was fetched. -/
def Session.keepsNodes (s : Session) : Bool := decide (s.isLivemode = false ∨ s.liveMode = true)

/-- The number of the first segment, from its node. -/
def firstSeqNumber (node0 : M3uBaseNode) : Int :=
  if node0.mediaSequence = -1 then 0 else node0.mediaSequence

/-- A download that was started: the number that the playlist starts with and the one of the
segment, its node, and how it ended. -/
structure Started where
  first : Int
  seq : Int
  node : M3uBaseNode
  ending : FetchEnd

/-- `_download_next_segment` where no seek, close or interrupt is there at the start. -/
def downloadNextSegment (env : DownloadEnv) (s : Session) : Option (Session × Option Started) :=
  match s.playlist with
  | none => some (s, none)
  | some p => do
    let node0 ← p.getNodeByIndex 0
    let cur := s.resync env.segmentSwitch p node0.mediaSequence
    let first := firstSeqNumber node0
    if s.seektimeUs < 0 ∧ cur - first > p.baseNodeNum - 1 then
      some ({ s with curSeqNum := cur }, none)
    else
      let (cur, seektimeUs, node) := s.nextNode p first cur
      let s := { s with curSeqNum := cur, seektimeUs := seektimeUs }
      match node with
      | none => some (s, none)
      | some node =>
        if s.seektimeUs ≥ 0 ∧ s.isLivemode then some (s, none)
        else do
          let isLive := s.fetchesLive p
          let e ← fetchRetry (env.server node.fileUrl) env.rangeType isLive s.keepsNodes
            env.openretry env.events ⟨node.readOffset, node.fileSize, s.written⟩ node
          some ({ s with
              playlist := some (p.setNode e.node)
              lastSegmentUrl := if isLive then some node.fileUrl else s.lastSegmentUrl
              curSeqNum := if e.goOn then i32 (cur + 1) else cur
              written := e.progress.cache },
            some ⟨first, cur, node, e⟩)

section
variable {env : DownloadEnv} {s s' : Session} {st : Started}

/-- What is known of a download that was started. -/
theorem started_cases (h : downloadNextSegment env s = some (s', some st)) :
    ∃ p node0 seektimeUs, s.playlist = some p ∧ p.getNodeByIndex 0 = some node0 ∧
      st.first = firstSeqNumber node0 ∧
      s.nextNode p st.first (s.resync env.segmentSwitch p node0.mediaSequence) =
        (st.seq, seektimeUs, some st.node) ∧
      fetchRetry (env.server st.node.fileUrl) env.rangeType (s.fetchesLive p) s.keepsNodes
        env.openretry env.events ⟨st.node.readOffset, st.node.fileSize, s.written⟩ st.node =
          some st.ending ∧
      s' = { s with
        playlist := some (p.setNode st.ending.node)
        lastSegmentUrl := if s.fetchesLive p then some st.node.fileUrl else s.lastSegmentUrl
        curSeqNum := if st.ending.goOn then i32 (st.seq + 1) else st.seq
        seektimeUs := seektimeUs
        written := st.ending.progress.cache } := by
  unfold downloadNextSegment at h
  split at h
  · cases h
  · rename_i p hp
    obtain ⟨node0, h0, h⟩ := Option.bind_eq_some_iff.mp h
    dsimp only at h
    split at h
    · cases h
    · generalize hn : s.nextNode p _ _ = n at h
      obtain ⟨cur, seektimeUs, node⟩ := n
      dsimp only at h
      split at h
      · cases h
      · split at h
        · cases h
        · obtain ⟨e, he, h⟩ := Option.bind_eq_some_iff.mp h
          cases h
          exact ⟨p, node0, seektimeUs, hp, h0, rfl, hn, he, rfl⟩

/-- **A segment is delivered once**: in every download that starts at the offset 0 and whose last
fetch succeeds, whatever fetches and reads have failed before. -/
theorem written_of_fetched {doc : List Byte} (hdoc : doc ≠ [])
    (hserver : (env.server st.node.fileUrl).Serves doc) (hevents : ∀ e ∈ env.events, e.Steady)
    (h : downloadNextSegment env s = some (s', some st)) (hstart : st.node.readOffset = 0)
    (hret : st.ending.ret = 0) : s'.written = s.written ++ doc := by
  obtain ⟨p, node0, seektimeUs, -, -, -, -, hfetch, rfl⟩ := started_cases h
  have hres : Progress.Resumable doc s.written
      ⟨st.node.readOffset, st.node.fileSize, s.written⟩ := by
    refine ⟨0, by rw [hstart]; rfl, Nat.zero_le _, ?_⟩
    rw [List.take_zero, List.append_nil]
  exact fetchRetry_cache hdoc hserver hevents hres hfetch hret

end

/-- A server that sends the document from the start of a range on. -/
def rangeServer (doc : List Byte) : Server where
  fsize := doc.length
  respond
    | none => doc
    | some r => doc.drop r.start.toNat

/-- A playlist of one segment. -/
def onePlaylist (fileUrl : List Byte) : M3UParser where
  isVariantPlaylist := false
  isExtm3u := true
  isComplete := true
  isInitcheck := true
  targetDuration := 10
  baseNodeNum := 1
  durationUs := 10000000
  iframeNodeList := []
  head := [{ M3uBaseNode.zero with fileUrl := fileUrl, durationUs := 10000000, fileSize := -1 }]
  mediaGroupHead := []

/-- A connection that fails after two bytes, and one that brings the third. -/
def brokenDownload : DownloadEnv where
  segmentSwitch := 1
  rangeType := 0
  openretry := 3
  server := fun _ => rangeServer [1, 2, 3]
  events :=
    [.openFails (-404) false false, .openOk, .read 2 false false, .read eagain false false,
      .read econnreset false false, .openOk, .cacheFull, .read 5 false false, .read 0 false false]

/-- A session at the start of a playlist of one segment. -/
def oneSegment : Session :=
  ⟨some (onePlaylist (bytes "http://a/1.ts")), 0, none, false, false, -1, []⟩

theorem written_brokenDownload :
    ∃ s' st, downloadNextSegment brokenDownload oneSegment = some (s', some st) ∧
      st.ending.ret = 0 ∧ s'.written = [1, 2, 3] := by
  have hrun : ((downloadNextSegment brokenDownload oneSegment).bind (·.2)).map
      (fun st => (st.node.readOffset, st.ending.ret)) = some (0, 0) := by decide
  obtain ⟨st, hst, heq⟩ := Option.map_eq_some_iff.mp hrun
  obtain ⟨⟨s', o⟩, h, ho⟩ := Option.bind_eq_some_iff.mp hst
  dsimp only at ho
  subst ho
  obtain ⟨hstart, hret⟩ := Prod.mk.inj heq
  refine ⟨s', st, h, hret, ?_⟩
  have hserver : (brokenDownload.server st.node.fileUrl).Serves [1, 2, 3] :=
    ⟨rfl, rfl, fun _ => rfl⟩
  exact written_of_fetched (by decide) hserver (by decide) h hstart hret

end VendorAmlogic.Hls
