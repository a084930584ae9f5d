import VendorAmlogic.Hls.Layout

/-!
# The times of segments

The duration of a segment is that of the last `EXTINF` between its URI and the
one before; without one it is -1 for the first segment and 0 for the others. The
parser adds the durations up: a segment starts at the sum of the durations before
it, and a search by time finds the segment at that time. The sums are 64-bit
numbers, so this is so exactly as long as all durations together fit one.
-/

namespace VendorAmlogic.Hls

open VendorAmlogic.Lib

/-! ## What the text says -/

/-- The segments with their durations, the last one first, and the duration that pends. -/
structure Timed where
  segments : List (List Byte × Int)
  pending : Int

/-- What a line adds. -/
def Timed.line (env : ParseEnv) (t : Timed) (line : List Byte) : Timed :=
  if line = [] then t
  else if line.head? = some 0x23 then
    if tagOf line = some .inf then { t with pending := parseMetaDataDurationUs env line } else t
  else ⟨(line, t.pending) :: t.segments, 0⟩

/-- The URIs of a text with their durations, in order. -/
def timed (env : ParseEnv) (text : List Byte) : List (List Byte × Int) :=
  ((linesAt (cutBom text)).foldl (Timed.line env) ⟨[], -1⟩).segments.reverse

/-- The durations together. -/
def total (segs : List (List Byte × Int)) : Int := (segs.map Prod.snd).sum

@[simp] theorem total_nil : total [] = 0 := rfl

@[simp] theorem total_cons (seg : List Byte × Int) (segs : List (List Byte × Int)) :
    total (seg :: segs) = seg.2 + total segs := by
  simp [total]

theorem total_reverse (segs : List (List Byte × Int)) : total segs.reverse = total segs := by
  rw [total, total, List.map_reverse, List.sum_reverse]

/-- No duration is negative but a missing one of the first segment. -/
def Lasting : List (List Byte × Int) → Prop
  | [] => True
  | seg :: segs => (0 ≤ seg.2 ∨ segs = [] ∧ seg.2 = -1) ∧ Lasting segs

theorem Lasting.total_ge {segs : List (List Byte × Int)} (h : Lasting segs) : -1 ≤ total segs := by
  induction segs with
  | nil => decide
  | cons seg segs ih =>
    have := ih h.2
    rw [total_cons]
    rcases h.1 with h | ⟨rfl, h⟩
    · omega
    · rw [total_nil]
      omega

/-! ## The table -/

/-- The time is one of the segment. -/
def M3uBaseNode.Spans (n : M3uBaseNode) (timeUs : Int) : Prop :=
  n.startUs ≤ timeUs ∧ timeUs < n.startUs + n.durationUs

/-- **The table of segments**: the nodes have the URIs and the durations in order, start at the
sum of what is before, and are found by their index and by their time. -/
structure SegmentTable (env : ParseEnv) (segs : List (List Byte × Int)) (p : M3UParser) :
    Prop where
  length : p.head.length = segs.length
  node : ∀ (i : Nat) (seg : List Byte × Int), segs[i]? = some seg →
    ∃ n, p.head.reverse[i]? = some n ∧ p.getNodeByIndex i = some n ∧ n.index = i ∧
      makeUrl env.hostOf maxUrlSize [] env.baseUrl seg.1 = some n.fileUrl ∧
      n.durationUs = seg.2 ∧ n.startUs = total (segs.take i)
  outside : ∀ i : Int, i < 0 ∨ segs.length ≤ i → p.getNodeByIndex i = none
  durationUs : p.durationUs = total segs
  byTime : ∀ timeUs, 0 ≤ timeUs → timeUs < total segs →
    ∃ n ∈ p.head, p.getNodeByTime timeUs = some n ∧ ∀ m ∈ p.head, m.Spans timeUs ↔ m = n
  beyond : ∀ timeUs, total segs ≤ timeUs → p.getNodeByTime timeUs = none

/-- Nodes for segments, both with the last one first. -/
def NodesTimed (env : ParseEnv) : List M3uBaseNode → List (List Byte × Int) → Prop
  | [], [] => True
  | n :: nodes, seg :: segs =>
    (n.index = segs.length ∧ makeUrl env.hostOf maxUrlSize [] env.baseUrl seg.1 = some n.fileUrl ∧
      n.durationUs = seg.2 ∧ n.startUs = i64 (total segs)) ∧ NodesTimed env nodes segs
  | _, _ => False

section
variable {env : ParseEnv} {nodes : List M3uBaseNode} {segs : List (List Byte × Int)}

theorem NodesTimed.length (h : NodesTimed env nodes segs) : nodes.length = segs.length := by
  induction nodes generalizing segs with
  | nil =>
    cases segs with
    | nil => rfl
    | cons seg segs => exact h.elim
  | cons n nodes ih =>
    cases segs with
    | nil => exact h.elim
    | cons seg segs => rw [List.length_cons, List.length_cons, ih h.2]

theorem nodesTimed_plain : NodesTimed env (nodes.map M3uBaseNode.plain) segs ↔
    NodesTimed env nodes segs := by
  induction nodes generalizing segs with
  | nil => rfl
  | cons n nodes ih =>
    cases segs with
    | nil => rfl
    | cons seg segs =>
      rw [List.map_cons]
      unfold NodesTimed
      rw [ih]
      rfl

/-- The node at a place. -/
theorem NodesTimed.get (h : NodesTimed env nodes segs) {i : Nat} {seg : List Byte × Int}
    (hseg : segs.reverse[i]? = some seg) :
    ∃ n, nodes.reverse[i]? = some n ∧ n.index = i ∧
      makeUrl env.hostOf maxUrlSize [] env.baseUrl seg.1 = some n.fileUrl ∧
      n.durationUs = seg.2 ∧ n.startUs = i64 (total (segs.reverse.take i)) := by
  induction nodes generalizing segs with
  | nil =>
    cases segs with
    | nil => cases hseg
    | cons seg segs => exact h.elim
  | cons n nodes ih =>
    cases segs with
    | nil => exact h.elim
    | cons seg' segs =>
      have hlen := h.2.length
      have hi := (List.getElem?_eq_some_iff.mp hseg).1
      rw [List.length_reverse, List.length_cons] at hi
      rw [List.reverse_cons] at hseg ⊢
      rw [List.reverse_cons]
      rcases Nat.lt_succ_iff_lt_or_eq.mp hi with hlt | rfl
      · rw [List.getElem?_append_left (by rwa [List.length_reverse])] at hseg
        rw [List.getElem?_append_left (by rw [List.length_reverse]; omega),
          List.take_append_of_le_length (by rw [List.length_reverse]; omega)]
        exact ih h.2 hseg
      · rw [← List.length_reverse, List.getElem?_concat_length] at hseg
        cases hseg
        refine ⟨n, ?_, h.1.1, h.1.2.1, h.1.2.2.1, ?_⟩
        · rw [← hlen, ← List.length_reverse, List.getElem?_concat_length]
        · rw [h.1.2.2.2, ← List.length_reverse, List.take_left, total_reverse]

/-! ## Searches by time -/

theorem Lasting.tail_lt {seg : List Byte × Int} (h : Lasting (seg :: segs))
    (hfit : total (seg :: segs) < 2 ^ 63) : total segs < 2 ^ 63 := by
  rw [total_cons] at hfit
  rcases h.1 with h | ⟨rfl, -⟩
  · omega
  · decide

theorem Lasting.drop (h : Lasting segs) (hfit : total segs < 2 ^ 63) (k : Nat) :
    Lasting (segs.drop k) ∧ total (segs.drop k) < 2 ^ 63 := by
  induction segs generalizing k with
  | nil =>
    rw [List.drop_nil]
    exact ⟨h, hfit⟩
  | cons seg segs ih =>
    cases k with
    | zero => exact ⟨h, hfit⟩
    | succ k => exact ih h.2 (h.tail_lt hfit) k

/-- The first of the nodes, whose start is the sum of the rest. -/
theorem NodesTimed.head_times {n : M3uBaseNode} {seg : List Byte × Int}
    (h : NodesTimed env (n :: nodes) (seg :: segs)) (hl : Lasting (seg :: segs))
    (hfit : total (seg :: segs) < 2 ^ 63) :
    n.startUs = total segs ∧ n.startUs + n.durationUs = total (seg :: segs) := by
  have hge := hl.2.total_ge
  have hlt := hl.tail_lt hfit
  have hstart : n.startUs = total segs := by
    rw [h.1.2.2.2, i64_eq_self (by omega) hlt]
  rw [total_cons, hstart, h.1.2.2.1]
  exact ⟨rfl, Int.add_comm _ _⟩

/-- No segment ends behind the end of all. -/
theorem NodesTimed.end_le (h : NodesTimed env nodes segs) (hl : Lasting segs)
    (hfit : total segs < 2 ^ 63) {n : M3uBaseNode} (hn : n ∈ nodes) :
    -1 ≤ n.startUs + n.durationUs ∧ n.startUs + n.durationUs ≤ total segs := by
  induction nodes generalizing segs with
  | nil => cases hn
  | cons m nodes ih =>
    cases segs with
    | nil => exact h.elim
    | cons seg segs =>
      rcases List.mem_cons.mp hn with rfl | hn
      · rw [(h.head_times hl hfit).2]
        exact ⟨hl.total_ge, le_rfl⟩
      · obtain ⟨hge, hle⟩ := ih h.2 hl.2 (hl.tail_lt hfit) hn
        refine ⟨hge, ?_⟩
        rw [total_cons]
        rcases hl.1 with hpos | ⟨rfl, -⟩
        · omega
        · have hlen := h.2.length
          rw [List.eq_nil_of_length_eq_zero hlen] at hn
          cases hn

theorem NodesTimed.exists_spans (h : NodesTimed env nodes segs) (hl : Lasting segs)
    (hfit : total segs < 2 ^ 63) {timeUs : Int} (h0 : 0 ≤ timeUs) (h1 : timeUs < total segs) :
    ∃ n ∈ nodes, n.Spans timeUs := by
  induction nodes generalizing segs with
  | nil =>
    cases segs with
    | nil =>
      rw [total_nil] at h1
      omega
    | cons seg segs => exact h.elim
  | cons n nodes ih =>
    cases segs with
    | nil => exact h.elim
    | cons seg segs =>
      obtain ⟨hstart, hend⟩ := h.head_times hl hfit
      by_cases hlate : total segs ≤ timeUs
      · exact ⟨n, List.mem_cons_self, by omega, by omega⟩
      · obtain ⟨m, hm, hspans⟩ := ih h.2 hl.2 (hl.tail_lt hfit) (by omega)
        exact ⟨m, List.mem_cons_of_mem _ hm, hspans⟩

theorem NodesTimed.spans_unique (h : NodesTimed env nodes segs) (hl : Lasting segs)
    (hfit : total segs < 2 ^ 63) {timeUs : Int} {n m : M3uBaseNode} (hn : n ∈ nodes) (hm : m ∈ nodes)
    (hns : n.Spans timeUs) (hms : m.Spans timeUs) : n = m := by
  induction nodes generalizing segs with
  | nil => cases hn
  | cons k nodes ih =>
    cases segs with
    | nil => exact h.elim
    | cons seg segs =>
      have hstart := (h.head_times hl hfit).1
      have hfit' := hl.tail_lt hfit
      -- what is before a segment ends where it starts
      have hbefore : ∀ x ∈ nodes, ¬ (k.Spans timeUs ∧ x.Spans timeUs) := by
        rintro x hx ⟨hk, hxs⟩
        have hxend := (h.2.end_le hl.2 hfit' hx).2
        have hk1 := hk.1
        have hx2 := hxs.2
        omega
      rcases List.mem_cons.mp hn with rfl | hn'
      · rcases List.mem_cons.mp hm with rfl | hm'
        · rfl
        · exact absurd ⟨hns, hms⟩ (hbefore m hm')
      · rcases List.mem_cons.mp hm with rfl | hm'
        · exact absurd ⟨hms, hns⟩ (hbefore n hn')
        · exact ih h.2 hl.2 hfit' hn' hm'

/-- The search by time asks the nodes for the time. -/
theorem getNodeByTime_eq {p : M3UParser} (h : NodesTimed env p.head segs) (hl : Lasting segs)
    (hfit : total segs < 2 ^ 63) {timeUs : Int} (h0 : 0 ≤ timeUs) :
    p.getNodeByTime timeUs =
      p.head.find? fun n => decide (n.startUs ≤ timeUs ∧ timeUs < n.startUs + n.durationUs) := by
  unfold M3UParser.getNodeByTime
  rw [if_neg (by omega)]
  apply List.find?_congr
  intro n hn
  obtain ⟨hge, hle⟩ := h.end_le hl hfit hn
  rw [i64_eq_self (by omega) (by omega)]

/-- **Nodes that keep the times make the table**, as long as all durations fit a number. -/
theorem segmentTable_of_timed {p : M3UParser} (h : NodesTimed env p.head segs)
    (hnum : p.baseNodeNum = p.head.length) (hdur : p.durationUs = i64 (total segs))
    (hl : Lasting segs) (hfit : total segs < 2 ^ 63) : SegmentTable env segs.reverse p := by
  have hlen := h.length
  have hge := hl.total_ge
  have hindexed : p.Indexed := by
    refine ⟨hnum, fun i hi => ?_⟩
    have hi' : i < segs.reverse.length := by
      rw [List.length_reverse, ← hlen]
      rwa [List.length_reverse] at hi
    obtain ⟨n, hn, hindex, -⟩ := h.get (List.getElem?_eq_getElem hi')
    rw [List.getElem?_eq_getElem hi] at hn
    cases hn
    exact hindex
  refine ⟨by rw [List.length_reverse, hlen], fun i seg hseg => ?_, fun i hi => ?_, ?_, ?_, ?_⟩
  · obtain ⟨n, hn, hindex, hurl, hd, hs⟩ := h.get hseg
    obtain ⟨hi, hget⟩ := List.getElem?_eq_some_iff.mp hn
    refine ⟨n, hn, by rw [hindexed.getNodeByIndex hi, hget], hindex, hurl, hd, ?_⟩
    rw [hs, List.take_reverse, total_reverse]
    obtain ⟨hl', hfit'⟩ := hl.drop hfit (segs.length - i)
    have := hl'.total_ge
    exact i64_eq_self (by omega) hfit'
  · unfold M3UParser.getNodeByIndex
    rw [List.length_reverse] at hi
    rw [if_pos (by omega)]
  · rw [hdur, i64_eq_self (by omega) hfit, total_reverse]
  · intro timeUs h0 h1
    rw [total_reverse] at h1
    rw [getNodeByTime_eq h hl hfit h0]
    obtain ⟨n, hn, hspans⟩ := h.exists_spans hl hfit h0 h1
    have hsome : (p.head.find? fun n =>
        decide (n.startUs ≤ timeUs ∧ timeUs < n.startUs + n.durationUs)).isSome :=
      List.find?_isSome.mpr ⟨n, hn, decide_eq_true hspans⟩
    obtain ⟨m, hm⟩ := Option.isSome_iff_exists.mp hsome
    have hmem := List.mem_of_find?_eq_some hm
    have hms : m.Spans timeUs := by
      have hdec := List.find?_some hm
      rw [decide_eq_true_eq] at hdec
      exact hdec
    refine ⟨m, hmem, hm, fun k hk => ⟨fun hks => ?_, fun hkm => hkm ▸ hms⟩⟩
    exact h.spans_unique hl hfit hk hmem hks hms
  · intro timeUs h1
    rw [total_reverse] at h1
    by_cases h0 : timeUs < 0
    · exact if_pos h0
    · rw [getNodeByTime_eq h hl hfit (by omega), List.find?_eq_none]
      intro n hn
      have := (h.end_le hl hfit hn).2
      simp only [decide_eq_true_eq]
      omega

end

/-! ## The parser -/

/-- Nodes are added, with their times. -/
def ParseState.Timing (env : ParseEnv) (st : ParseState) : Prop :=
  st.isVariantPlaylist = false ∧ st.Growing env

/-- The nodes have the times of the text, and so have the locals. -/
structure Timely (env : ParseEnv) (t : Timed) (st : ParseState) : Prop where
  nodes : NodesTimed env st.parser.head t.segments
  num : st.parser.baseNodeNum = st.parser.head.length
  total : st.parser.durationUs = i64 (total t.segments)
  index : st.index = t.segments.length
  url : st.tmpNode.fileUrl = []
  pending : st.tmpNode.durationUs = t.pending

/-- The invariant of the loop. -/
structure TimeInv (env : ParseEnv) (t : Timed) (st : ParseState) : Prop where
  count : st.parser.baseNodeNum ≤ t.segments.length
  timely : st.Timing env → Timely env t st

/-- What a tag leaves as it is. -/
structure SameTimes (st st' : ParseState) : Prop where
  nodes : SameNodes st.parser st'.parser
  total : st'.parser.durationUs = st.parser.durationUs
  variant : st'.isVariantPlaylist = false → st.isVariantPlaylist = false
  iframe : st'.isIframeOnly = false → st.isIframeOnly = false
  index : st'.index = st.index
  url : st'.tmpNode.fileUrl = st.tmpNode.fileUrl

section
variable {env : ParseEnv} {t : Timed} {st st' : ParseState} {line : List Byte}

theorem SameTimes.timing (h : SameTimes st st') (hg : st'.Timing env) : st.Timing env :=
  ⟨h.variant hg.1, h.iframe hg.2.1, h.nodes.num ▸ hg.2.2⟩

theorem TimeInv.same {pending : Int} (h : TimeInv env t st) (hs : SameTimes st st')
    (hp : st'.isIframeOnly = false → st.tmpNode.durationUs = t.pending →
      st'.tmpNode.durationUs = pending) : TimeInv env { t with pending := pending } st' := by
  refine ⟨by rw [hs.nodes.num]; exact h.count, fun hg => ?_⟩
  have ht := h.timely (hs.timing hg)
  refine ⟨?_, ?_, hs.total.trans ht.total, hs.index.trans ht.index, hs.url.trans ht.url,
    hp hg.2.1 ht.pending⟩
  · rw [← nodesTimed_plain, hs.nodes.head, nodesTimed_plain]
    exact ht.nodes
  · rw [hs.nodes.num, hs.nodes.length, ht.num]

theorem TimeInv.keep (h : TimeInv env t st) (hs : SameTimes st st')
    (hp : st'.tmpNode.durationUs = st.tmpNode.durationUs) : TimeInv env t st' :=
  h.same hs fun _ hpend => hp.trans hpend

-- the numbers are variables here, so that they are not computed
theorem sameTimes_range (st : ParseState) (rangeEnd : Nat) (readOffset fileSize : Int) :
    SameTimes st { st with
        segmentRangeOffset := rangeEnd
        tmpNode := { st.tmpNode with fileSize := fileSize, readOffset := readOffset } } :=
  ⟨⟨rfl, rfl⟩, rfl, id, id, rfl, rfl⟩

theorem durationUs_range (node : M3uBaseNode) (readOffset fileSize : Int) :
    ({ node with fileSize := fileSize, readOffset := readOffset } : M3uBaseNode).durationUs =
      node.durationUs := rfl

theorem sameTimes_iframeRange (st : ParseState) (rangeEnd : Nat) (node : M3uIframeNode) :
    SameTimes st { st with segmentRangeOffset := rangeEnd, tmpIframeNode := node } :=
  ⟨⟨rfl, rfl⟩, rfl, id, id, rfl, rfl⟩

/-- Every tag but `EXTINF` leaves the duration that pends. -/
theorem parseTag_times {tag : Tag} (hp : parseTag env st line tag = some (.next, st')) :
    SameTimes st st' ∧
      (tag ≠ .iFramesOnly → st'.isIframeOnly = st.isIframeOnly) ∧
      (tag ≠ .inf → st'.tmpNode.durationUs = st.tmpNode.durationUs) ∧
      (tag = .inf → st'.isIframeOnly = false →
        st'.tmpNode.durationUs = parseMetaDataDurationUs env line) := by
  cases tag
  case inf =>
    have hp := ParseState.media_next hp
    subst hp
    split
    · rename_i hiframe
      refine ⟨⟨⟨rfl, rfl⟩, rfl, id, id, rfl, rfl⟩, fun _ => rfl, fun h => absurd rfl h, fun _ h => ?_⟩
      exact absurd (h.symm.trans hiframe) (by decide)
    · exact ⟨⟨⟨rfl, rfl⟩, rfl, id, id, rfl, rfl⟩, fun _ => rfl, fun h => absurd rfl h, fun _ _ => rfl⟩
  case discontinuity =>
    have hp := ParseState.media_next hp
    subst hp
    exact ⟨⟨⟨rfl, rfl⟩, rfl, id, id, rfl, rfl⟩, fun _ => rfl, fun _ => rfl,
      fun h => by cases h⟩
  case byterange =>
    obtain rfl := ParseState.media_next hp
    refine ⟨?_, fun _ => ?_, fun _ => ?_, fun h => by cases h⟩
    · split
      · exact ⟨⟨rfl, rfl⟩, rfl, id, id, rfl, rfl⟩
      · dsimp only
        split
        · exact sameTimes_iframeRange st _ _
        · exact sameTimes_range st _ _ _
    · split
      · rfl
      · dsimp only
        split
        · rfl
        · rfl
    · split
      · rfl
      · dsimp only
        split
        · rfl
        · exact durationUs_range st.tmpNode _ _
  case key =>
    simp only [parseTag] at hp
    split at hp
    · cases hp
    · obtain ⟨info, hinfo, hp⟩ := Option.bind_eq_some_iff.mp hp
      cases info with
      | none => cases hp
      | some info =>
        cases hp
        exact ⟨⟨⟨rfl, rfl⟩, rfl, id, id, rfl, rfl⟩, fun _ => rfl, fun _ => rfl,
          fun h => by cases h⟩
  case media =>
    obtain ⟨o, hmedia, hp⟩ := Option.bind_eq_some_iff.mp hp
    cases o with
    | none => cases hp
    | some parser =>
      cases hp
      obtain ⟨_, rfl⟩ := parseMedia_eq hmedia
      exact ⟨⟨⟨rfl, rfl⟩, rfl, id, id, rfl, rfl⟩, fun _ => rfl, fun _ => rfl,
        fun h => by cases h⟩
  case streamInf =>
    cases hp
    obtain ⟨_, _, _, _, _, _, hnode⟩ := parseStreamInf_same st.parser line st.tmpNode
    rw [hnode]
    exact ⟨⟨⟨rfl, rfl⟩, rfl, (fun h => by cases h), id, rfl, rfl⟩, fun _ => rfl, fun _ => rfl,
      fun h => by cases h⟩
  case iFrameStreamInf =>
    simp only [parseTag] at hp
    split at hp
    · cases hp
      exact ⟨⟨⟨rfl, rfl⟩, rfl, id, id, rfl, rfl⟩, fun _ => rfl, fun _ => rfl,
        fun h => by cases h⟩
    · obtain ⟨node, -, hp⟩ := Option.bind_eq_some_iff.mp hp
      obtain ⟨url, -, hp⟩ := Option.bind_eq_some_iff.mp hp
      cases hp
      exact ⟨⟨⟨setIframeUrl_plain _ _ _, rfl⟩, rfl, id, id, rfl, rfl⟩, fun _ => rfl, fun _ => rfl,
        fun h => by cases h⟩
  case iFramesOnly =>
    cases hp
    exact ⟨⟨⟨rfl, rfl⟩, rfl, id, (fun h => by cases h), rfl, rfl⟩, fun h => absurd rfl h,
      fun _ => rfl, fun h => by cases h⟩
  case endlist =>
    cases hp
    exact ⟨⟨⟨rfl, rfl⟩, rfl, id, id, rfl, rfl⟩, fun _ => rfl, fun _ => rfl,
      fun h => by cases h⟩
  case allowCache =>
    cases hp
    exact ⟨⟨⟨rfl, rfl⟩, rfl, id, id, rfl, rfl⟩, fun _ => rfl, fun _ => rfl,
      fun h => by cases h⟩
  case version =>
    cases hp
    exact ⟨⟨⟨rfl, rfl⟩, rfl, id, id, rfl, rfl⟩, fun _ => rfl, fun _ => rfl,
      fun h => by cases h⟩
  all_goals
    simp only [parseTag] at hp
    split at hp
    · cases hp
    · cases hp
      exact ⟨⟨⟨rfl, rfl⟩, rfl, id, id, rfl, rfl⟩, fun _ => rfl, fun _ => rfl,
        fun h => by cases h⟩

/-- A line with a tag, or a comment. -/
theorem TimeInv.tagLine (h : TimeInv env t st) (hp : parseTags env st line = some (.next, st')) :
    TimeInv env (if tagOf line = some .inf then
      { t with pending := parseMetaDataDurationUs env line } else t) st' := by
  unfold parseTags at hp
  cases htag : tagOf line with
  | none =>
    rw [htag] at hp
    cases hp
    exact h
  | some tag =>
    rw [htag] at hp
    obtain ⟨hsame, -, hother, hinf⟩ := parseTag_times hp
    split
    · rename_i heq
      exact h.same hsame fun hg _ => hinf (Option.some.inj heq) hg
    · rename_i hne
      exact h.keep hsame (hother fun heq => hne (heq ▸ rfl))

/-- The URI of a segment. -/
theorem TimeInv.uri (h : TimeInv env t st) (hp : parseUri env st line = some st') :
    TimeInv env ⟨(line, t.pending) :: t.segments, 0⟩ st' := by
  obtain ⟨url, hurl, hp⟩ := Option.bind_eq_some_iff.mp hp
  cases hp
  have hcount := h.count
  by_cases hnum : st.parser.baseNodeNum ≤ env.maxBaseNodeNum
  · unfold M3UParser.addNode
    rw [if_neg (by dsimp only; omega)]
    refine ⟨by dsimp only; rw [List.length_cons]; omega, fun hg => ?_⟩
    have hvariant : st.isVariantPlaylist = false := hg.1
    have ht := h.timely ⟨hvariant, hg.2.1, hnum⟩
    rw [ht.url] at hurl
    refine ⟨⟨⟨ht.index, hurl, ht.pending, ?_⟩, ht.nodes⟩, ?_, ?_, ?_, rfl, rfl⟩
    · dsimp only
      rw [if_neg (by rw [hvariant]; decide), ht.total]
    · dsimp only
      rw [ht.num, List.length_cons]
      rfl
    · dsimp only
      rw [if_neg (by rw [hvariant]; decide), ht.total, ht.pending, i64_add_i64, total_cons, Int.add_comm]
    · dsimp only
      rw [ht.index, List.length_cons]
      rfl
  · unfold M3UParser.addNode
    rw [if_pos (by dsimp only; omega)]
    refine ⟨by dsimp only; rw [List.length_cons]; omega, fun hg => ?_⟩
    exact absurd hg.2.2 hnum

/-- The URI of an I frame. -/
theorem TimeInv.iframeUri (h : TimeInv env t st) (hiframe : st.isIframeOnly = true)
    (hp : parseIframeUri env st line = some st') :
    TimeInv env ⟨(line, t.pending) :: t.segments, 0⟩ st' := by
  obtain ⟨uri, -, hp⟩ := Option.bind_eq_some_iff.mp hp
  cases hp
  have hcount := h.count
  refine ⟨by dsimp only; rw [List.length_cons]; omega, fun hg => ?_⟩
  have hg : st.isIframeOnly = false := hg.2.1
  rw [hiframe] at hg
  cases hg

theorem TimeInv.extm3u (h : TimeInv env t st) : TimeInv env t st.extm3u := by
  unfold ParseState.extm3u
  split
  · exact h.keep ⟨⟨rfl, rfl⟩, rfl, id, id, rfl, rfl⟩ rfl
  · exact h

/-- One round of the loop. -/
theorem TimeInv.next (h : TimeInv env t st) (hp : parseLine env st line = some (.next, st')) :
    TimeInv env (t.line env line) st' := by
  unfold Timed.line
  obtain ⟨hempty, rfl⟩ | ⟨hline, st₁, st₂, htags, hnode, rfl⟩ := parseLine_next hp
  · rw [if_pos hempty]
    exact h
  · rw [if_neg hline]
    suffices hinv : TimeInv env _ st₂ from
      hinv.keep ⟨⟨rfl, rfl⟩, rfl, id, id, rfl, rfl⟩ rfl
    unfold parseNode at hnode
    by_cases hhead : line.head? = some 0x23
    · rw [if_pos hhead] at hnode ⊢
      cases hnode
      exact h.extm3u.tagLine htags
    · rw [if_neg hhead] at hnode ⊢
      obtain rfl := parseTags_uri hhead htags
      split at hnode
      · rename_i hiframe
        exact h.extm3u.iframeUri hiframe hnode
      · exact h.extm3u.uri hnode

theorem timeInv_init : TimeInv env ⟨[], -1⟩ ParseState.init :=
  ⟨le_rfl, fun _ => ⟨trivial, rfl, by decide, rfl, rfl, rfl⟩⟩

/-! ## Whole texts -/

/-- Durations of the text that are not negative leave only the one of a first segment so. -/
theorem Lasting.next (h : Lasting t.segments)
    (hp : 0 ≤ t.pending ∨ t.segments = [] ∧ t.pending = -1)
    (hline : tagOf line = some .inf → 0 ≤ parseMetaDataDurationUs env line) :
    Lasting (t.line env line).segments ∧
      (0 ≤ (t.line env line).pending ∨
        (t.line env line).segments = [] ∧ (t.line env line).pending = -1) := by
  unfold Timed.line
  split
  · exact ⟨h, hp⟩
  · split
    · split
      · rename_i htag
        exact ⟨h, .inl (hline htag)⟩
      · exact ⟨h, hp⟩
    · exact ⟨⟨hp, h⟩, .inl le_rfl⟩

theorem lasting_lines {lines : List (List Byte)} (h : Lasting t.segments)
    (hp : 0 ≤ t.pending ∨ t.segments = [] ∧ t.pending = -1)
    (hlines : ∀ line ∈ lines, tagOf line = some .inf → 0 ≤ parseMetaDataDurationUs env line) :
    Lasting (lines.foldl (Timed.line env) t).segments := by
  induction lines generalizing t with
  | nil => exact h
  | cons line lines ih =>
    obtain ⟨h', hp'⟩ := h.next hp (hlines line List.mem_cons_self)
    exact ih h' hp' fun l hl => hlines l (List.mem_cons_of_mem _ hl)

/-- Nothing but the tag of I frames makes the parser read them. -/
theorem parseLine_iframe (htag : tagOf line ≠ some .iFramesOnly)
    (hp : parseLine env st line = some (.next, st')) : st'.isIframeOnly = st.isIframeOnly := by
  have hext : st.extm3u.isIframeOnly = st.isIframeOnly := by
    unfold ParseState.extm3u
    split
    · rfl
    · rfl
  obtain ⟨-, rfl⟩ | ⟨-, st₁, st₂, htags, hnode, rfl⟩ := parseLine_next hp
  · rfl
  · have htags' : st₁.isIframeOnly = st.isIframeOnly := by
      rw [← hext]
      unfold parseTags at htags
      cases ht : tagOf line with
      | none =>
        rw [ht] at htags
        cases htags
        rfl
      | some tag =>
        rw [ht] at htags htag
        exact (parseTag_times htags).2.1 fun h => htag (h ▸ rfl)
    rw [← htags']
    unfold parseNode at hnode
    split at hnode
    · cases hnode
      rfl
    · split at hnode
      · obtain ⟨uri, -, hnode⟩ := Option.bind_eq_some_iff.mp hnode
        cases hnode
        rfl
      · obtain ⟨url, -, hnode⟩ := Option.bind_eq_some_iff.mp hnode
        cases hnode
        rfl

/-- What is known of a run of the loop to its end. -/
theorem parseLines_times {lines : List (List Byte)} (h : TimeInv env t st)
    (hiframe : ∀ line ∈ lines, tagOf line ≠ some .iFramesOnly)
    (hp : parseLines env lines st = some (.next, st')) :
    TimeInv env (lines.foldl (Timed.line env) t) st' ∧ st'.isIframeOnly = st.isIframeOnly := by
  induction lines generalizing t st with
  | nil =>
    cases hp
    exact ⟨h, rfl⟩
  | cons line lines ih =>
    obtain ⟨⟨flow₁, st₁⟩, hline, hp⟩ := Option.bind_eq_some_iff.mp hp
    split at hp
    · rename_i hnext
      obtain rfl : flow₁ = .next := hnext
      obtain ⟨htimes, hsame⟩ := ih (h.next hline)
        (fun l hl => hiframe l (List.mem_cons_of_mem _ hl)) hp
      exact ⟨htimes, hsame.trans (parseLine_iframe (hiframe line List.mem_cons_self) hline)⟩
    · rename_i hstop
      cases hp
      exact absurd rfl hstop

/-- A tag after which the loop is left fails the check. -/
theorem parseTag_leave {tag : Tag} (hp : parseTag env st line tag = some (.leave, st')) :
    st'.parser.isInitcheck = false := by
  have hmedia : ∀ st₁, st.media st₁ = some (.leave, st') → st'.parser.isInitcheck = false := by
    intro st₁ h
    unfold ParseState.media at h
    split at h
    · cases h
      rfl
    · cases h
  cases tag
  case inf => exact hmedia _ hp
  case discontinuity => exact hmedia _ hp
  case byterange => exact hmedia _ hp
  case key =>
    simp only [parseTag] at hp
    split at hp
    · cases hp
    · obtain ⟨info, -, hp⟩ := Option.bind_eq_some_iff.mp hp
      cases info with
      | none =>
        cases hp
        rfl
      | some info => cases hp
  case media =>
    obtain ⟨o, -, hp⟩ := Option.bind_eq_some_iff.mp hp
    cases o with
    | none =>
      cases hp
      rfl
    | some parser => cases hp
  case iFrameStreamInf =>
    simp only [parseTag] at hp
    split at hp
    · cases hp
    · obtain ⟨node, -, hp⟩ := Option.bind_eq_some_iff.mp hp
      obtain ⟨url, -, hp⟩ := Option.bind_eq_some_iff.mp hp
      cases hp
  all_goals
    simp only [parseTag] at hp
    first
    | cases hp
    | split at hp
      · cases hp
      · cases hp

/-- A round after which the loop is left: the check fails, or the first line was not there. -/
theorem parseLine_leave (hp : parseLine env st line = some (.leave, st')) :
    st'.parser.isInitcheck = false ∨ st.lineNo = 0 ∧ st' = st := by
  unfold parseLine at hp
  split at hp
  · cases hp
  · split at hp
    · cases hp
    · split at hp
      · rename_i hfirst
        cases hp
        exact .inr ⟨hfirst.1, rfl⟩
      · obtain ⟨⟨flow, st₁⟩, htags, hp⟩ := Option.bind_eq_some_iff.mp hp
        split at hp
        · cases hp
          unfold parseTags at htags
          split at htags
          · cases htags
          · exact .inl (parseTag_leave htags)
        · obtain ⟨st₂, -, hp⟩ := Option.bind_eq_some_iff.mp hp
          cases hp

/-- A playlist with its first line that passes the check was read to its end. -/
theorem parseLines_complete {lines : List (List Byte)} {flow : Flow}
    (hfirst : st.lineNo = 0 → st.parser.isExtm3u = false)
    (hp : parseLines env lines st = some (flow, st')) (hflow : flow ≠ .fail)
    (hext : st'.parser.isExtm3u = true) (hcheck : st'.parser.isInitcheck = true) : flow = .next := by
  induction lines generalizing st with
  | nil =>
    cases hp
    rfl
  | cons line lines ih =>
    obtain ⟨⟨flow₁, st₁⟩, hline, hp⟩ := Option.bind_eq_some_iff.mp hp
    split at hp
    · rename_i hnext
      obtain rfl : flow₁ = .next := hnext
      refine ih (fun h0 => ?_) hp
      obtain ⟨-, rfl⟩ | ⟨-, _, st₂, -, -, rfl⟩ := parseLine_next hline
      · exact hfirst h0
      · exact absurd h0 (Nat.succ_ne_zero _)
    · rename_i hstop
      cases hp
      cases flow with
      | next => rfl
      | fail => exact absurd rfl hflow
      | leave =>
        rcases parseLine_leave hline with hbad | ⟨h0, rfl⟩
        · rw [hcheck] at hbad
          cases hbad
        · rw [hfirst h0] at hext
          cases hext

end

/-- A text that is accepted as a media playlist, without the tag of I frames, whose durations are
not negative and whose segments are no more than the maximum. -/
structure MediaText (env : ParseEnv) (text : List Byte) (p : M3UParser) : Prop where
  parse : m3uParse env text = some (some p)
  extm3u : p.isExtm3u = true
  initcheck : p.isInitcheck = true
  media : p.isVariantPlaylist = false
  noIframes : ∀ line ∈ linesAt (cutBom text), tagOf line ≠ some .iFramesOnly
  durations : ∀ line ∈ linesAt (cutBom text), tagOf line = some .inf →
    0 ≤ parseMetaDataDurationUs env line
  few : (timed env text).length ≤ env.maxBaseNodeNum

section
variable {env : ParseEnv} {text : List Byte} {p : M3UParser}

/-- The nodes of such a text keep its times. -/
theorem MediaText.timed (h : MediaText env text p) :
    ∃ segs, Hls.timed env text = segs.reverse ∧ Lasting segs ∧ NodesTimed env p.head segs ∧
      p.baseNodeNum = p.head.length ∧ p.durationUs = i64 (total segs) := by
  obtain ⟨⟨flow, st⟩, hlines, hp⟩ := Option.bind_eq_some_iff.mp h.parse
  dsimp only at hp
  split at hp
  · cases hp
  · rename_i hflow
    cases hp
    obtain rfl : flow = .next :=
      parseLines_complete (fun _ => rfl) hlines hflow h.extm3u h.initcheck
    obtain ⟨hinv, hiframe⟩ := parseLines_times timeInv_init h.noIframes hlines
    have hfew := h.few
    have hcount := hinv.count
    have htiming : st.Timing env := by
      refine ⟨h.media, hiframe, ?_⟩
      unfold Hls.timed at hfew
      rw [List.length_reverse] at hfew
      exact hcount.trans hfew
    have ht := hinv.timely htiming
    exact ⟨_, rfl, lasting_lines trivial (.inr ⟨rfl, rfl⟩) h.durations, ht.nodes, ht.num, ht.total⟩

theorem MediaText.table (h : MediaText env text p) (hfit : total (Hls.timed env text) < 2 ^ 63) :
    SegmentTable env (Hls.timed env text) p := by
  obtain ⟨segs, heq, hl, hnodes, hnum, hdur⟩ := h.timed
  rw [heq, total_reverse] at hfit
  rw [heq]
  exact segmentTable_of_timed hnodes hnum hdur hl hfit

theorem MediaText.total_lt (h : MediaText env text p)
    (htable : SegmentTable env (Hls.timed env text) p) : total (Hls.timed env text) < 2 ^ 63 := by
  obtain ⟨segs, -, -, -, -, hdur⟩ := h.timed
  rw [← htable.durationUs, hdur]
  exact i64_lt _

end

/-- **When the table of segments is right**: exactly if all durations together fit 64 bits. -/
theorem segmentTable_iff (env : ParseEnv) (text : List Byte) (p : M3UParser)
    (h : MediaText env text p) :
    SegmentTable env (timed env text) p ↔ total (timed env text) < 2 ^ 63 :=
  ⟨h.total_lt, h.table⟩

/-- Two segments of the same duration. -/
def twoSegments (seconds : String) : List Byte :=
  bytes "#EXTM3U\n#EXTINF:" ++ bytes seconds ++ bytes ",\na.ts\n#EXTINF:" ++ bytes seconds ++
    bytes ",\nb.ts\n"

/-- A parser for texts with durations of 9000000000000 seconds. -/
def hugeDurations : ParseEnv := { tenSeconds with durationUs := fun _ => 9000000000000000000 }

theorem exists_mediaText {env : ParseEnv} {text : List Byte}
    (hparse : ((m3uParse env text).bind id).any (fun p =>
      p.isExtm3u && p.isInitcheck && !p.isVariantPlaylist) = true)
    (hlines : ∀ line ∈ linesAt (cutBom text), tagOf line ≠ some .iFramesOnly)
    (hdur : ∀ line ∈ linesAt (cutBom text), tagOf line = some .inf →
      0 ≤ parseMetaDataDurationUs env line)
    (hfew : (timed env text).length ≤ env.maxBaseNodeNum) : ∃ p, MediaText env text p := by
  obtain ⟨p, hp, hfields⟩ := (Option.any_eq_true _ _).mp hparse
  obtain ⟨o, ho, rfl⟩ := Option.bind_eq_some_iff.mp hp
  simp only [Bool.and_eq_true, Bool.not_eq_true'] at hfields
  exact ⟨p, ho, hfields.1.1, hfields.1.2, hfields.2, hlines, hdur, hfew⟩

theorem segmentTable_ten : ∃ p, m3uParse tenSeconds (twoSegments "10") = some (some p) ∧
    SegmentTable tenSeconds (timed tenSeconds (twoSegments "10")) p := by
  obtain ⟨p, h⟩ : ∃ p, MediaText tenSeconds (twoSegments "10") p :=
    exists_mediaText (by decide) (by decide) (by decide) (by decide)
  exact ⟨p, h.parse, (segmentTable_iff tenSeconds (twoSegments "10") p h).mpr (by decide)⟩

/-- **The sum of the durations overflows.** -/
theorem segmentTable_huge : ∃ p, MediaText hugeDurations (twoSegments "9000000000000") p ∧
    ¬ SegmentTable hugeDurations (timed hugeDurations (twoSegments "9000000000000")) p := by
  obtain ⟨p, h⟩ : ∃ p, MediaText hugeDurations (twoSegments "9000000000000") p :=
    exists_mediaText (by decide) (by decide) (by decide) (by decide)
  exact ⟨p, h, fun htable => absurd (h.total_lt htable) (by decide)⟩

end VendorAmlogic.Hls
