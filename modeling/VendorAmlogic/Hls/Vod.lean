import Mathlib.Data.List.ReduceOption
import Mathlib.Tactic
import VendorAmlogic.Hls.Session
import VendorAmlogic.Hls.Text

/-!
# Byte ranges of a complete playlist

Downloads and seeks in a playlist with an end. The node of a segment has the
bytes that its text asks for, and the same fields are the record from which a
download goes on: after a download they are 0 and the size of the document.
A request starts at the offset of the node only when that is not 0.
-/

namespace VendorAmlogic.Hls

open VendorAmlogic.Lib

/-! ## Fetches -/

/-- The events that end a download: a seek, and the error -1000. -/
def FetchEvent.Breaks : FetchEvent → Prop
  | .seek => True
  | .read rlen _ _ => rlen = -1000
  | _ => False

instance : DecidablePred FetchEvent.Breaks
  | .seek => isTrue trivial
  | .read rlen _ _ => inferInstanceAs (Decidable (rlen = -1000))
  | .openFails _ _ _ => isFalse id
  | .openOk => isFalse id
  | .cacheFull => isFalse id

/-- There is a part of the data, and more to come. -/
def Progress.Partial (p : Progress) : Prop := 0 < p.readOffset ∧ p.readOffset < p.fileSize

instance (p : Progress) : Decidable p.Partial :=
  inferInstanceAs (Decidable (0 < p.readOffset ∧ p.readOffset < p.fileSize))

/-- Whether a fetch of a download fails with a part of the data. -/
def failsPartly (server : Server) (rangeType : Int) (isLive : Bool) :
    Nat → List FetchEvent → Progress → Bool
  | 0, _, _ => false
  | cnt + 1, es, p =>
    match fetchSegmentFile server rangeType isLive es p with
    | none => false
    | some r => decide (r.1 < 0) &&
        (decide r.2.1.Partial || failsPartly server rangeType isLive cnt r.2.2 r.2.1)

/-- What is known of the end of a fetch. -/
structure Returned (es : List FetchEvent) (ret : Int) (rest : List FetchEvent) : Prop where
  nonpos : ret ≤ 0
  rest : rest <:+ es
  broken : ret = -1000 → ∃ e ∈ es, e.Breaks

theorem Returned.cons {es rest : List FetchEvent} {ret : Int} (e : FetchEvent)
    (h : Returned es ret rest) : Returned (e :: es) ret rest := by
  refine ⟨h.nonpos, h.rest.trans (List.suffix_cons e es), fun hret => ?_⟩
  obtain ⟨e', he', hb⟩ := h.broken hret
  exact ⟨e', List.mem_cons_of_mem e he', hb⟩

theorem readFails_ret {isLive late : Bool} {fsize code : Int} {p : Progress} {r : Reading}
    {e : Int × Progress} (h : readFails isLive fsize code late p r = some e) :
    e.1 = 0 ∨ e.1 = eagain ∨ e.1 = code := by
  unfold readFails at h
  split at h
  · cases h
    exact .inl rfl
  · split at h
    · split at h
      · cases h
        exact .inr (.inr rfl)
      · cases h
    · split at h
      · cases h
        exact .inr (.inl rfl)
      · cases h
        exact .inr (.inr rfl)

theorem endOfResponse_ret (fsize : Int) (p : Progress) (r : Reading) :
    (endOfResponse fsize p r).1 = 0 ∨ (endOfResponse fsize p r).1 = eagain := by
  unfold endOfResponse
  dsimp only
  generalize (if fsize < 1 then _ else p.flush r.buf) = p
  split
  · exact .inr rfl
  · exact .inl rfl

theorem readLoop_returned {isLive : Bool} {fsize ret : Int} {es rest : List FetchEvent}
    {p p' : Progress} {r : Reading} (h : readLoop isLive fsize es p r = some (ret, p', rest)) :
    Returned es ret rest := by
  induction es generalizing p r with
  | nil => cases h
  | cons e es ih =>
    cases e with
    | openFails errcode late netDown => cases h
    | openOk => cases h
    | seek =>
      cases h
      exact ⟨Int.le_refl 0, List.suffix_refl _, fun h => absurd h (by omega)⟩
    | cacheFull => exact (ih h).cons _
    | read rlen firstNode late =>
      simp only [readLoop] at h
      have hes : es <:+ FetchEvent.read rlen firstNode late :: es := List.suffix_cons _ _
      split at h
      · rename_i hneg
        split at h
        · rename_i e' he
          cases h
          have hret := readFails_ret he
          unfold eagain at hret
          refine ⟨by omega, hes, fun hcode => ⟨_, List.mem_cons_self .., ?_⟩⟩
          have : rlen = -1000 := by omega
          exact this
        · exact (ih h).cons _
      · split at h
        · cases h
          have hret := endOfResponse_ret fsize p r
          unfold eagain at hret
          exact ⟨by omega, hes, by omega⟩
        · split at h
          · cases h
            exact ⟨Int.le_refl 0, hes, fun h => absurd h (by omega)⟩
          · exact (ih h).cons _

theorem fetchSegmentFile_returned {server : Server} {rangeType ret : Int} {isLive : Bool}
    {es rest : List FetchEvent} {p p' : Progress}
    (h : fetchSegmentFile server rangeType isLive es p = some (ret, p', rest)) :
    Returned es ret rest := by
  induction es generalizing p with
  | nil => cases h
  | cons e es ih =>
    have hes : es <:+ e :: es := List.suffix_cons _ _
    cases e with
    | read rlen firstNode late => cases h
    | cacheFull => cases h
    | seek =>
      cases h
      exact ⟨Int.le_refl 0, List.suffix_refl _, fun h => absurd h (by omega)⟩
    | openOk => exact (readLoop_returned h).cons _
    | openFails errcode late netDown =>
      simp only [fetchSegmentFile] at h
      split at h
      · exact (ih h).cons _
      · split at h
        · cases h
          exact ⟨by decide, hes, fun h => absurd h (by decide)⟩
        · split at h
          · cases h
            exact ⟨by decide, hes, fun h => absurd h (by decide)⟩
          · exact (ih h).cons _

/-! ## The offset of a node -/

section
variable {server : Server} {rangeType ret : Int} {isLive : Bool} {cnt : Nat}
  {es : List FetchEvent} {p : Progress} {node : M3uBaseNode} {e : FetchEnd}

theorem keepProgress_readOffset (hp : ¬ p.Partial) (vod : Bool) :
    (keepProgress vod p node).readOffset = node.readOffset := by
  unfold keepProgress
  split
  · exact if_neg hp
  · rfl

/-- Before anything is fetched, a seek leaves the node as it is. -/
theorem fetchRetry_seek {vod : Bool} (hseek : seekRaised es = true)
    (h : fetchRetry server rangeType isLive vod cnt es p node = some e) : e.node = node := by
  cases cnt with
  | zero =>
    simp only [fetchRetry, hseek, if_true, Option.some_inj] at h
    rw [← h]
  | succ cnt =>
    simp only [fetchRetry, hseek, if_true, Option.some_inj] at h
    rw [← h]

theorem not_seekRaised (hes : ∀ e ∈ es, ¬ e.Breaks) : seekRaised es = false := by
  cases es with
  | nil => rfl
  | cons e es =>
    cases e with
    | seek => exact absurd trivial (hes .seek (List.mem_cons_self ..))
    | _ => rfl

/-- The offset is 0 after a fetch that is neither broken nor interrupted. -/
theorem fetchDone_reset (hret : ret ≤ 0) (hne : ret ≠ -1000) (hseek : seekRaised es = false) :
    (fetchDone true ret p node es).node.readOffset = 0 := by
  unfold fetchDone
  rw [if_neg (by simp [hseek])]
  split
  · rfl
  · rename_i hdone
    have hzero : ret ≠ 0 := fun h => hdone ⟨h, hseek⟩
    have hneg : ret < 0 := by omega
    rw [if_pos ⟨hneg, hseek⟩]
    rfl

theorem fetchRetry_unbroken (hes : ∀ e ∈ es, ¬ e.Breaks)
    (h : fetchRetry server rangeType isLive true cnt es p node = some e) :
    e.node.readOffset = 0 := by
  induction cnt generalizing es p node with
  | zero =>
    have hseek := not_seekRaised hes
    simp only [fetchRetry, hseek, Bool.false_eq_true, if_false, Option.some_inj] at h
    rw [← h]
    exact fetchDone_reset (by omega) (by omega) hseek
  | succ cnt ih =>
    simp only [fetchRetry, not_seekRaised hes, Bool.false_eq_true, if_false] at h
    obtain ⟨⟨ret, p', rest⟩, hfetch, h⟩ := Option.bind_eq_some_iff.mp h
    have hret := fetchSegmentFile_returned hfetch
    have hrest : ∀ e ∈ rest, ¬ e.Breaks := fun e he => hes e (hret.rest.subset he)
    split at h
    · exact ih hrest h
    · cases h
      refine fetchDone_reset hret.nonpos (fun hcode => ?_) (not_seekRaised hrest)
      obtain ⟨e, he, hb⟩ := hret.broken hcode
      exact hes e he hb

/-- The offset is 0 after a fetch that did not fail with a part of the data. -/
theorem fetchDone_whole (hret : ret ≤ 0) (hnode : node.readOffset = 0) (hp : ret < 0 → ¬ p.Partial) :
    (fetchDone true ret p (keepProgress true p node) es).node.readOffset = 0 := by
  unfold fetchDone
  split
  · rfl
  · rename_i hseek
    split
    · rfl
    · rename_i hdone
      have hkept : (keepProgress true p node).readOffset = 0 := by
        rw [keepProgress_readOffset _ true, hnode]
        intro hpart
        rcases Int.lt_or_eq_of_le hret with hneg | hzero
        · exact hp hneg hpart
        · cases hs : seekRaised es with
          | false => exact hdone ⟨hzero, hs⟩
          | true => exact hseek ⟨hzero, hs, hpart⟩
      split
      · split
        · exact hkept
        · rfl
      · exact hkept

theorem fetchRetry_whole (hnode : node.readOffset = 0)
    (hfails : failsPartly server rangeType isLive cnt es p = false)
    (h : fetchRetry server rangeType isLive true cnt es p node = some e) :
    e.node.readOffset = 0 := by
  induction cnt generalizing es p node with
  | zero =>
    simp only [fetchRetry, Option.some_inj] at h
    rw [← h]
    split
    · exact hnode
    · rename_i hseek
      exact fetchDone_reset (by omega) (by omega) (Bool.eq_false_iff.mpr hseek)
  | succ cnt ih =>
    simp only [fetchRetry] at h
    split at h
    · cases h
      exact hnode
    · obtain ⟨⟨ret, p', rest⟩, hfetch, h⟩ := Option.bind_eq_some_iff.mp h
      have hret := fetchSegmentFile_returned hfetch
      simp only [failsPartly, hfetch, Bool.and_eq_false_iff, Bool.or_eq_false_iff,
        decide_eq_false_iff_not] at hfails
      split at h
      · rename_i hretry
        obtain ⟨hpart, hfails⟩ := hfails.resolve_left (fun hn => hn hretry.1)
        refine ih ?_ hfails h
        rw [keepProgress_readOffset hpart, hnode]
      · cases h
        refine fetchDone_whole hret.nonpos hnode (fun hneg => ?_)
        exact (hfails.resolve_left (fun hn => hn hneg)).1

end

/-! ## Runs -/

/-- `m3u_session_seekUs` without media groups, with the time that it returns. -/
def Session.seekUs (s : Session) (posUs : Int) : Session × Int :=
  let node := if s.isLivemode then none else s.playlist.bind (·.getNodeByTime posUs)
  let realPosUs := (node.map (·.startUs)).getD posUs
  if posUs ≥ 604800000000 ∧ s.isLivemode then
    ({ s with seektimeUs := 604800000000, liveMode := true }, 604800000000)
  else
    ({ s with
        seektimeUs := posUs
        liveMode := if s.isLivemode then decide (posUs > 0) else s.liveMode },
      if posUs - realPosUs > 5000000 then posUs - 5000000 else realPosUs)

theorem seekUs_same (s : Session) (posUs : Int) :
    (s.seekUs posUs).1.playlist = s.playlist ∧ (s.seekUs posUs).1.isLivemode = s.isLivemode := by
  unfold Session.seekUs
  dsimp only
  split
  · exact ⟨rfl, rfl⟩
  · exact ⟨rfl, rfl⟩

/-- The node of the segment that a download is for. -/
def Session.nextSegment (s : Session) (segmentSwitch : Int) : Option M3uBaseNode := do
  let p ← s.playlist
  let node0 ← p.getNodeByIndex 0
  (s.nextNode p (firstSeqNumber node0) (s.resync segmentSwitch p node0.mediaSequence)).2.2

/-- A session, and the segments of which a download has begun that no seek stopped before its first
request. -/
structure VodState where
  session : Session
  begun : List Int

inductive VodOp where
  | download (env : DownloadEnv)
  | seekUs (posUs : Int)

/-- A download that is started is the output of a step. -/
def vodStep (w : VodState) : VodOp → VodState × Option (DownloadEnv × Started)
  | .seekUs posUs => ({ w with session := (w.session.seekUs posUs).1 }, none)
  | .download env =>
    match downloadNextSegment env w.session with
    | some (s, some st) =>
      (⟨s, if seekRaised env.events then w.begun else st.node.index :: w.begun⟩,
        some (env, st))
    | some (s, none) => ({ w with session := s }, none)
    | none => (w, none)

/-- The downloads that a run starts. -/
def starts (w : VodState) (ops : List VodOp) : List (DownloadEnv × Started) :=
  (run vodStep w ops).2.reduceOption

/-- The range in the first request of a download. -/
def firstRequest (r : DownloadEnv × Started) : Option Range :=
  rangeHeader r.1.rangeType r.2.node.readOffset r.2.node.fileSize

/-- The request for the bytes of a segment. -/
def asked : Option (Nat × Nat) → Option Range
  | none => none
  | some (length, offset) => some ⟨offset, some (offset + length - 1)⟩

/-- The bytes of the segment at a place of a text. -/
def Told.rangeAt (t : Told) (index : Int) : Option (Nat × Nat) :=
  (t.segment index.toNat).bind (·.range)

/-- Each download asks for the bytes of its segment, and so two of one segment get the same. -/
structure AsksForRanges (t : Told) (log : List (DownloadEnv × Started)) : Prop where
  asks : ∀ r ∈ log, firstRequest r = asked (t.rangeAt r.2.node.index)
  again : ∀ r ∈ log, ∀ r' ∈ log, r.2.node.index = r'.2.node.index →
    ∀ server : List Byte → Server,
      (server r.2.node.fileUrl).respond (firstRequest r) =
        (server r'.2.node.fileUrl).respond (firstRequest r')

/-- The download of a segment: one with a range is at an offset that is not 0, is asked for with
`range_type` 0, and no download of it has begun before; and one without a range in which a fetch
fails with a part of the data meets no seek and no read of -1000. -/
structure StartCareful (t : Told) (w : VodState) (env : DownloadEnv) (node : M3uBaseNode) :
    Prop where
  ranged : ∀ r ∈ t.rangeAt node.index, 0 < r.2 ∧ 0 < r.1 ∧ r.2 + r.1 ≤ 2 ^ 63 ∧
    env.rangeType = 0 ∧ node.index ∉ w.begun
  whole : t.rangeAt node.index = none →
    failsPartly (env.server node.fileUrl) env.rangeType false env.openretry env.events
        ⟨node.readOffset, node.fileSize, w.session.written⟩ = true →
      ∀ e ∈ env.events, ¬ e.Breaks

/-- The downloads of a run are so. -/
def VodCareful (t : Told) (w : VodState) : VodOp → Prop
  | .seekUs _ => True
  | .download env => ∀ node ∈ w.session.nextSegment env.segmentSwitch, StartCareful t w env node

/-- A node as it should be: of a segment without a range at the offset 0, and of one with a range
as the text says until a download of it begins. -/
def NodeInv (begun : List Int) (range : Option (Nat × Nat)) (n : M3uBaseNode) : Prop :=
  match range with
  | none => n.readOffset = 0
  | some (length, offset) =>
    n.index ∉ begun → n.readOffset = i64 offset ∧ n.fileSize = i64 length

/-- The nodes of a session, and the URLs that the text gives to them. -/
structure VodInv (env : ParseEnv) (t : Told) (w : VodState) : Prop where
  vod : w.session.isLivemode = false
  nodes : ∃ p, w.session.playlist = some p ∧ p.isComplete = true ∧
    ∀ n ∈ p.head, NodeInv w.begun (t.rangeAt n.index) n ∧
      ∃ seg, t.segment n.index.toNat = some seg ∧
        makeUrl env.hostOf maxUrlSize [] env.baseUrl seg.uri = some n.fileUrl

section
variable {penv : ParseEnv} {t : Told} {w : VodState} {env : DownloadEnv} {s s' : Session}
  {st : Started} {p : M3UParser}

theorem nextNode_mem {first cur seq seektimeUs : Int} {n : M3uBaseNode}
    (h : s.nextNode p first cur = (seq, seektimeUs, some n)) : n ∈ p.head := by
  have hindex : ∀ i, p.getNodeByIndex i = some n → n ∈ p.head := by
    intro i hi
    unfold M3UParser.getNodeByIndex at hi
    split at hi
    · cases hi
    · exact List.mem_reverse.mp (List.mem_of_find?_eq_some hi)
  have htime : ∀ n', p.getNodeByTime s.seektimeUs = some n' → n' ∈ p.head := by
    intro n' hn'
    unfold M3UParser.getNodeByTime at hn'
    split at hn'
    · cases hn'
    · exact List.mem_of_find?_eq_some hn'
  unfold Session.nextNode at h
  split at h
  · split at h
    · rename_i n' hn'
      cases h
      exact htime _ hn'
    · injection h with _ h
      injection h with _ h
      exact hindex _ h
  · injection h with _ h
    injection h with _ h
    exact hindex _ h

/-- A download of nothing leaves the playlist as it is. -/
theorem notStarted_cases (h : downloadNextSegment env s = some (s', none)) :
    s'.playlist = s.playlist ∧ s'.isLivemode = s.isLivemode := by
  unfold downloadNextSegment at h
  split at h
  · cases h
    exact ⟨rfl, rfl⟩
  · obtain ⟨node0, -, h⟩ := Option.bind_eq_some_iff.mp h
    dsimp only at h
    split at h
    · cases h
      exact ⟨rfl, rfl⟩
    · generalize s.nextNode _ _ _ = n at h
      obtain ⟨cur, seektimeUs, node⟩ := n
      dsimp only at h
      split at h
      · cases h
        exact ⟨rfl, rfl⟩
      · split at h
        · cases h
          exact ⟨rfl, rfl⟩
        · obtain ⟨e, -, h⟩ := Option.bind_eq_some_iff.mp h
          cases h

/-- The node of a download that was started. -/
theorem started_nextSegment (h : downloadNextSegment env s = some (s', some st)) :
    s.nextSegment env.segmentSwitch = some st.node := by
  obtain ⟨p, node0, seektimeUs, hp, h0, hfirst, hnext, -⟩ := started_cases h
  unfold Session.nextSegment
  rw [hp, Option.bind_eq_bind, Option.bind_some, h0, Option.bind_eq_bind, Option.bind_some,
    ← hfirst, hnext]

/-- The node after a download. -/
theorem NodeInv.download {range : Option (Nat × Nat)} {e : FetchEnd} {n : M3uBaseNode}
    {begun : List Int} {written : List Byte} (h : NodeInv begun range n)
    (hfetch : fetchRetry (env.server n.fileUrl) env.rangeType false true env.openretry env.events
      ⟨n.readOffset, n.fileSize, written⟩ n = some e)
    (hcare : range = none →
      failsPartly (env.server n.fileUrl) env.rangeType false env.openretry env.events
          ⟨n.readOffset, n.fileSize, written⟩ = true → ∀ e ∈ env.events, ¬ e.Breaks) :
    NodeInv (if seekRaised env.events then begun else n.index :: begun) range e.node := by
  cases range with
  | none =>
    have hcare := hcare rfl
    by_cases hfails : failsPartly (env.server n.fileUrl) env.rangeType false env.openretry
        env.events ⟨n.readOffset, n.fileSize, written⟩ = true
    · exact fetchRetry_unbroken (hcare hfails) hfetch
    · exact fetchRetry_whole h (Bool.eq_false_iff.mpr hfails) hfetch
  | some r =>
    have hindex : e.node.index = n.index := by rw [fetchRetry_same hfetch]
    split
    · rename_i hseek
      rw [fetchRetry_seek hseek hfetch]
      exact h
    · intro hnew
      rw [hindex] at hnew
      exact absurd (List.mem_cons_self ..) hnew

/-- A node of another segment after a download. -/
theorem NodeInv.later {range : Option (Nat × Nat)} {n : M3uBaseNode} {begun begun' : List Int}
    (h : NodeInv begun range n) (hf : ∀ i ∈ begun, i ∈ begun') : NodeInv begun' range n := by
  cases range with
  | none => exact h
  | some r => exact fun hnew => h fun hold => hnew (hf _ hold)

/-- The first request for a node as it should be. -/
theorem NodeInv.request {range : Option (Nat × Nat)} {n : M3uBaseNode} {begun : List Int}
    {rangeType : Int} (h : NodeInv begun range n)
    (hcare : ∀ r ∈ range,
      0 < r.2 ∧ 0 < r.1 ∧ r.2 + r.1 ≤ 2 ^ 63 ∧ rangeType = 0 ∧ n.index ∉ begun) :
    rangeHeader rangeType n.readOffset n.fileSize = asked range := by
  unfold rangeHeader
  cases range with
  | none =>
    have h : n.readOffset = 0 := h
    rw [if_neg (by omega)]
    rfl
  | some r =>
    obtain ⟨length, offset⟩ := r
    obtain ⟨hoffset, hlength, hfits, htype, hnew⟩ := hcare (length, offset) rfl
    obtain ⟨ho, hs⟩ := h hnew
    rw [i64_eq_self (by omega) (by omega)] at ho hs
    have hsize : ¬ (length : Int) ≤ 0 := by omega
    rw [ho, hs, if_pos (by omega)]
    simp only [htype, if_true, if_neg hsize]
    rfl

theorem VodInv.setNode (h : VodInv penv t w) (hp : w.session.playlist = some p)
    {n m : M3uBaseNode} {begun : List Int} (hn : n ∈ p.head)
    (hm : m = { n with readOffset := m.readOffset, fileSize := m.fileSize })
    (hinv : NodeInv begun (t.rangeAt n.index) m) (hf : ∀ i ∈ w.begun, i ∈ begun)
    (hs : s'.playlist = some (p.setNode m)) (hlive : s'.isLivemode = false) :
    VodInv penv t ⟨s', begun⟩ := by
  obtain ⟨p', hp', hcomplete, hnodes⟩ := h.nodes
  obtain rfl : p = p' := Option.some_inj.mp (hp.symm.trans hp')
  have hindex : m.index = n.index := by rw [hm]
  have hurl : m.fileUrl = n.fileUrl := by rw [hm]
  refine ⟨hlive, p.setNode m, hs, hcomplete, fun n' hn' => ?_⟩
  obtain ⟨k, hk, rfl⟩ := List.mem_map.mp hn'
  dsimp only
  split
  · rw [hindex, hurl]
    exact ⟨hinv, (hnodes n hn).2⟩
  · exact ⟨(hnodes k hk).1.later hf, (hnodes k hk).2⟩

/-- What is known of a download in a complete playlist. -/
def GoodStart (penv : ParseEnv) (t : Told) (o : Option (DownloadEnv × Started)) : Prop :=
  ∀ r, o = some r → firstRequest r = asked (t.rangeAt r.2.node.index) ∧
    ∃ seg, t.segment r.2.node.index.toNat = some seg ∧
      makeUrl penv.hostOf maxUrlSize [] penv.baseUrl seg.uri = some r.2.node.fileUrl

theorem goodStart_none (penv : ParseEnv) (t : Told) : GoodStart penv t none :=
  fun _ hr => nomatch hr

theorem VodInv.download (h : VodInv penv t w) (hcare : VodCareful t w (.download env))
    (hd : downloadNextSegment env w.session = some (s', some st)) :
    VodInv penv t
        ⟨s', if seekRaised env.events then w.begun else st.node.index :: w.begun⟩ ∧
      GoodStart penv t (some (env, st)) := by
  have hcare := hcare st.node (started_nextSegment hd)
  obtain ⟨p, node0, seektimeUs, hp, h0, hfirst, hnext, hfetch, rfl⟩ := started_cases hd
  obtain ⟨p', hp', hcomplete, hnodes⟩ := h.nodes
  obtain rfl : p = p' := Option.some_inj.mp (hp.symm.trans hp')
  have hmem := nextNode_mem hnext
  obtain ⟨hinv, hurl⟩ := hnodes st.node hmem
  have hlive : w.session.fetchesLive p = false := by
    unfold Session.fetchesLive
    simp [hcomplete]
  have hvod : w.session.keepsNodes = true := by
    unfold Session.keepsNodes
    simp [h.vod]
  rw [hlive, hvod] at hfetch
  constructor
  · refine h.setNode hp hmem (fetchRetry_same hfetch) (hinv.download hfetch hcare.whole) ?_ rfl
      h.vod
    intro i hi
    split
    · exact hi
    · exact List.mem_cons_of_mem _ hi
  · rintro r ⟨⟩
    exact ⟨hinv.request hcare.ranged, hurl⟩

theorem VodInv.step (op : VodOp) (h : VodInv penv t w) (hcare : VodCareful t w op) :
    VodInv penv t (vodStep w op).1 ∧ GoodStart penv t (vodStep w op).2 := by
  cases op with
  | seekUs posUs =>
    obtain ⟨hplaylist, hlive⟩ := seekUs_same w.session posUs
    obtain ⟨p, hp, hnodes⟩ := h.nodes
    exact ⟨⟨hlive.trans h.vod, p, hplaylist.trans hp, hnodes⟩, goodStart_none penv t⟩
  | download env =>
    unfold vodStep
    dsimp only
    split
    · rename_i s' st hd
      exact h.download hcare hd
    · rename_i s' hd
      obtain ⟨hplaylist, hlive⟩ := notStarted_cases hd
      obtain ⟨p, hp, hnodes⟩ := h.nodes
      exact ⟨⟨hlive.trans h.vod, p, hplaylist.trans hp, hnodes⟩, goodStart_none penv t⟩
    · exact ⟨h, goodStart_none penv t⟩

/-- The nodes that the parser makes are as they should be. -/
theorem vodInv_init {text : List Byte} (hparse : m3uParse penv text = some (some p))
    (hcomplete : p.isComplete = true) (hs : s.playlist = some p) (hlive : s.isLivemode = false) :
    VodInv penv (told penv text) ⟨s, []⟩ := by
  obtain ⟨segs, hsegs, hnodes⟩ := (m3uParse_tells hparse).nodes
  refine ⟨hlive, p, hs, hcomplete, fun n hn => ?_⟩
  obtain ⟨i, hi, -, seg, hseg, hkeeps⟩ := hnodes.mem hn
  have hsegment : (told penv text).segment n.index.toNat = some seg := by
    rw [hi]
    exact Told.segment_of_suffix hsegs hseg
  refine ⟨?_, seg, hsegment, hkeeps.url⟩
  have hrange : (told penv text).rangeAt n.index = seg.range := by
    unfold Told.rangeAt
    rw [hsegment]
    rfl
  rw [hrange]
  have hkept := hkeeps.range
  cases hr : seg.range with
  | none =>
    rw [hr] at hkept
    exact hkept.1
  | some r =>
    rw [hr] at hkept
    exact fun _ => hkept

/-- **Ranges in a careful run**: every download of a run with seeks asks for the bytes that the
text gives to its segment. -/
theorem asksForRanges_of_careful {text : List Byte} {ops : List VodOp}
    (hparse : m3uParse penv text = some (some p)) (hcomplete : p.isComplete = true)
    (hs : s.playlist = some p) (hlive : s.isLivemode = false)
    (hcare : Each (VodCareful (told penv text)) vodStep ⟨s, []⟩ ops) :
    AsksForRanges (told penv text) (starts ⟨s, []⟩ ops) := by
  have hgood := run_out (fun w op h hok => VodInv.step (w := w) op h hok)
    (vodInv_init hparse hcomplete hs hlive) hcare
  have hgood : ∀ r ∈ starts ⟨s, []⟩ ops, GoodStart penv (told penv text) (some r) := by
    intro r hr
    exact hgood _ (List.reduceOption_mem_iff.mp hr)
  refine ⟨fun r hr => (hgood r hr r rfl).1, fun r hr r' hr' hindex server => ?_⟩
  obtain ⟨hreq, seg, hseg, hurl⟩ := hgood r hr r rfl
  obtain ⟨hreq', seg', hseg', hurl'⟩ := hgood r' hr' r' rfl
  rw [hindex] at hreq hseg
  obtain rfl : seg = seg' := Option.some_inj.mp (hseg.symm.trans hseg')
  have hsame : r.2.node.fileUrl = r'.2.node.fileUrl := Option.some_inj.mp (hurl.symm.trans hurl')
  rw [hsame, hreq, hreq']

end

/-! ## A playlist with a range -/

instance (t : Told) (w : VodState) (env : DownloadEnv) (node : M3uBaseNode) :
    Decidable (StartCareful t w env node) :=
  decidable_of_iff (_ ∧ _) ⟨fun h => ⟨h.1, h.2⟩, fun h => ⟨h.1, h.2⟩⟩

instance (t : Told) (w : VodState) : ∀ op, Decidable (VodCareful t w op)
  | .seekUs _ => isTrue trivial
  | .download env => inferInstanceAs
      (Decidable (∀ node ∈ w.session.nextSegment env.segmentSwitch, StartCareful t w env node))

/-- Two bytes of a document from the second one on, and a whole document. -/
def rangedText : List Byte :=
  bytes ("#EXTM3U\n#EXTINF:10,\n#EXT-X-BYTERANGE:2@1\na.ts\n#EXTINF:10,\nb.ts\n#EXT-X-ENDLIST\n")

def rangedPlaylist : M3UParser :=
  ((m3uParse tenSeconds rangedText).bind id).getD M3UParser.empty

/-- A server that sends the bytes that it is asked for. -/
def partServer (doc : List Byte) : Server where
  fsize := doc.length
  respond
    | none => doc
    | some ⟨start, none⟩ => doc.drop start.toNat
    | some ⟨start, some stop⟩ => (doc.drop start.toNat).take (stop + 1 - start).toNat

/-- A download of a document of four bytes, with these events. -/
def fourBytes (events : List FetchEvent) : DownloadEnv where
  segmentSwitch := 1
  rangeType := 0
  openretry := 3
  server := fun _ => partServer [1, 2, 3, 4]
  events := events

/-- The range comes, and then the byte behind it. -/
def rangedDownload : VodOp := .download (fourBytes
  [.openOk, .read 2 false false, .read 0 false false, .openOk, .read 1 false false,
    .read 0 false false])

/-- A whole document. -/
def wholeDownload : VodOp := .download (fourBytes [.openOk, .read 4 false false])

def vodStart (p : M3UParser) : VodState := ⟨⟨some p, 0, none, false, false, -1, []⟩, []⟩

/-- What the text is to the parser and to a reader. -/
theorem rangedText_facts : m3uParse tenSeconds rangedText = some (some rangedPlaylist) ∧
    rangedPlaylist.isComplete = true ∧ (told tenSeconds rangedText).rangeAt 0 = some (2, 1) := by
  decide +kernel

/-- The segments in turn, a seek in the second one, and this one again. -/
theorem asksForRanges_rangedText :
    (starts (vodStart rangedPlaylist)
        [rangedDownload, wholeDownload, .seekUs 15000000, wholeDownload]).map
          (fun r => (r.2.node.index, firstRequest r)) =
        [(0, some ⟨1, some 2⟩), (1, none), (1, none)] ∧
      AsksForRanges (told tenSeconds rangedText) (starts (vodStart rangedPlaylist)
        [rangedDownload, wholeDownload, .seekUs 15000000, wholeDownload]) := by
  refine ⟨by decide +kernel, ?_⟩
  exact asksForRanges_of_careful (s := (vodStart rangedPlaylist).session) rangedText_facts.1
    rangedText_facts.2.1 rfl rfl (by decide +kernel)

/-- After a seek back to the start, the segment with the range is asked for as a whole. -/
theorem not_asksForRanges_rangedText :
    m3uParse tenSeconds rangedText = some (some rangedPlaylist) ∧
      rangedPlaylist.isComplete = true ∧
      (told tenSeconds rangedText).rangeAt 0 = some (2, 1) ∧
      ¬ AsksForRanges (told tenSeconds rangedText) (starts (vodStart rangedPlaylist)
        [rangedDownload, .seekUs 0, wholeDownload]) := by
  obtain ⟨hparse, hcomplete, hrange⟩ := rangedText_facts
  refine ⟨hparse, hcomplete, hrange, fun h => ?_⟩
  have hlog : (starts (vodStart rangedPlaylist) [rangedDownload, .seekUs 0, wholeDownload]).map
      (fun r => (r.2.node.index, firstRequest r)) = [(0, some ⟨1, some 2⟩), (0, none)] := by
    decide +kernel
  obtain ⟨r, l, hl, -, hl'⟩ := List.map_eq_cons_iff.mp hlog
  obtain ⟨r', l', rfl, hr', -⟩ := List.map_eq_cons_iff.mp hl'
  obtain ⟨hindex, hreq⟩ := Prod.mk.inj hr'
  have hask := h.asks r' (by rw [hl]; simp)
  rw [hreq, hindex, hrange] at hask
  cases hask

end VendorAmlogic.Hls
