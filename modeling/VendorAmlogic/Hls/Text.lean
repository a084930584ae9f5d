import VendorAmlogic.Hls.Parser

/-!
# What the text of a playlist says

The segments of a playlist, read off its lines: the bytes of a segment are the
range that was given last before its URI, and its key is the one of the last
`EXT-X-KEY` above it. `fast_parse` keeps this in the nodes, the key only in the
first node behind its line.
-/

namespace VendorAmlogic.Hls

open VendorAmlogic.Lib

/-- A segment: the line with its URI, the length and the offset of its bytes, and its key. -/
structure Segment where
  uri : List Byte
  range : Option (Nat × Nat)
  key : Option M3uKeyInfo
  deriving DecidableEq

/-- What the lines so far have told: the segments, the last one first, and what holds for the
next one. `mediaSequence` is the number of the first one. -/
structure Told where
  segments : List Segment
  range : Option (Nat × Nat)
  rangeEnd : Nat
  key : Option M3uKeyInfo
  mediaSequence : Int

/-- What a tag adds. -/
def Told.tag (env : ParseEnv) (t : Told) (line : List Byte) : Tag → Told
  | .mediaSequence =>
    if t.segments = [] then { t with mediaSequence := parseMetaData line } else t
  | .key =>
    match parseCipherInfo env line with
    | some (some info) => { t with key := some info }
    | _ => t
  | .byterange =>
    match parseByteRange line t.rangeEnd with
    | some (length, offset) =>
      { t with range := some (length, offset), rangeEnd := u64 ((offset : Int) + length) }
    | none => t
  | _ => t

/-- What a line adds. -/
def Told.line (env : ParseEnv) (t : Told) (line : List Byte) : Told :=
  if line = [] then t
  else if line.head? = some 0x23 then
    match tagOf line with
    | some tag => t.tag env line tag
    | none => t
  else { t with segments := ⟨line, t.range, t.key⟩ :: t.segments, range := none }

/-- What a text tells. -/
def told (env : ParseEnv) (text : List Byte) : Told :=
  ((linesOf (cutBom text)).map cutReturn).foldl (Told.line env) ⟨[], none, 0, none, 0⟩

/-- The segment at a place. -/
def Told.segment (t : Told) (i : Nat) : Option Segment := t.segments.reverse[i]?

theorem Told.segment_of_suffix {t : Told} {segs : List Segment} {i : Nat} {seg : Segment}
    (hsegs : segs <:+ t.segments) (h : segs.reverse[i]? = some seg) : t.segment i = some seg := by
  obtain ⟨later, heq⟩ := hsegs
  obtain ⟨hi, -⟩ := List.getElem?_eq_some_iff.mp h
  unfold Told.segment
  rw [← heq, List.reverse_append, List.getElem?_append_left hi, h]

/-! ## Nodes -/

/-- A node has the bytes of a segment; one without a range starts at 0 and has no size. -/
def RangeKept : Option (Nat × Nat) → Int → Int → Prop
  | none, readOffset, fileSize => readOffset = 0 ∧ fileSize ≤ 0
  | some (length, offset), readOffset, fileSize => readOffset = i64 offset ∧ fileSize = i64 length

/-- The last key in nodes with the last one first. -/
def lastKey (nodes : List M3uBaseNode) : Option M3uKeyInfo := nodes.findSome? (·.key)

/-- A node for a segment. -/
structure M3uBaseNode.Keeps (env : ParseEnv) (n : M3uBaseNode) (seg : Segment) : Prop where
  url : makeUrl env.hostOf maxUrlSize [] env.baseUrl seg.uri = some n.fileUrl
  range : RangeKept seg.range n.readOffset n.fileSize
  cipherInfo : n.cipherInfo = n.key.isSome

/-- Nodes for segments, both with the last one first. -/
def NodesTell (env : ParseEnv) : List M3uBaseNode → List Segment → Prop
  | [], [] => True
  | n :: nodes, seg :: segs =>
    n.index = nodes.length ∧ n.Keeps env seg ∧ lastKey (n :: nodes) = seg.key ∧
      NodesTell env nodes segs
  | _, _ => False

/-- A node without the URL of its I frames. -/
def M3uBaseNode.plain (n : M3uBaseNode) : M3uBaseNode := { n with iframeUrl := [] }

section
variable {env : ParseEnv} {nodes : List M3uBaseNode} {segs : List Segment}

theorem lastKey_plain (nodes : List M3uBaseNode) :
    lastKey (nodes.map M3uBaseNode.plain) = lastKey nodes := by
  unfold lastKey
  rw [List.findSome?_map]
  rfl

theorem nodesTell_plain : NodesTell env (nodes.map M3uBaseNode.plain) segs ↔
    NodesTell env nodes segs := by
  induction nodes generalizing segs with
  | nil => rfl
  | cons n nodes ih =>
    cases segs with
    | nil => rfl
    | cons seg segs =>
      have hkeeps : n.plain.Keeps env seg ↔ n.Keeps env seg :=
        ⟨fun h => ⟨h.url, h.range, h.cipherInfo⟩, fun h => ⟨h.url, h.range, h.cipherInfo⟩⟩
      rw [List.map_cons]
      unfold NodesTell
      rw [ih, ← List.map_cons, lastKey_plain, List.length_map, hkeeps]
      rfl

theorem NodesTell.length (h : NodesTell env nodes segs) : nodes.length = segs.length := by
  induction nodes generalizing segs with
  | nil =>
    cases segs with
    | nil => rfl
    | cons seg segs => exact h.elim
  | cons n nodes ih =>
    cases segs with
    | nil => exact h.elim
    | cons seg segs => rw [List.length_cons, List.length_cons, ih h.2.2.2]

/-- The key of the segment before a place. -/
def keyBefore (segs : List Segment) : Nat → Option M3uKeyInfo
  | 0 => none
  | i + 1 => (segs.reverse[i]?).bind (·.key)

theorem NodesTell.lastKey (h : NodesTell env nodes segs) :
    lastKey nodes = keyBefore segs nodes.length := by
  cases nodes with
  | nil => rfl
  | cons n nodes =>
    cases segs with
    | nil => exact h.elim
    | cons seg segs =>
      have hlen := h.2.2.2.length
      simp only [List.length_cons, keyBefore]
      rw [h.2.2.1, List.reverse_cons, hlen, ← List.length_reverse, List.getElem?_concat_length]
      rfl

/-- The node at a place and the segment there, whose key is that of the node or the one before. -/
theorem NodesTell.get (h : NodesTell env nodes segs) {i : Nat} (hi : i < nodes.length) :
    ∃ n seg, nodes.reverse[i]? = some n ∧ segs.reverse[i]? = some seg ∧ n.index = i ∧
      n.Keeps env seg ∧ seg.key = n.key.or (keyBefore segs i) := by
  induction nodes generalizing segs with
  | nil => cases hi
  | cons m nodes ih =>
    cases segs with
    | nil => exact h.elim
    | cons seg segs =>
      obtain ⟨hindex, hkeeps, hkey, hrest⟩ := h
      have hlen := hrest.length
      have hbefore : ∀ j ≤ segs.length, keyBefore (seg :: segs) j = keyBefore segs j := by
        intro j hj
        cases j with
        | zero => rfl
        | succ j =>
          simp only [keyBefore]
          rw [List.reverse_cons, List.getElem?_append_left (by rw [List.length_reverse]; exact hj)]
      rcases Nat.lt_succ_iff_lt_or_eq.mp hi with hlt | rfl
      · obtain ⟨n, seg', hn, hseg, hi', hkeeps', hkey'⟩ := ih hrest hlt
        refine ⟨n, seg', ?_, ?_, hi', hkeeps', ?_⟩
        · rw [List.reverse_cons, List.getElem?_append_left (by rw [List.length_reverse]; exact hlt),
            hn]
        · rw [List.reverse_cons, List.getElem?_append_left
            (by rw [List.length_reverse, ← hlen]; exact hlt), hseg]
        · rw [hbefore _ (by omega)]
          exact hkey'
      · refine ⟨m, seg, ?_, ?_, hindex, hkeeps, ?_⟩
        · rw [List.reverse_cons, ← List.length_reverse, List.getElem?_concat_length]
        · rw [List.reverse_cons, hlen, ← List.length_reverse, List.getElem?_concat_length]
        · rw [hbefore _ (by omega), ← hkey]
          unfold Hls.lastKey
          rw [List.findSome?_cons]
          cases hm : m.key with
          | some info => rfl
          | none =>
            rw [Option.none_or]
            exact hrest.lastKey

/-- The node at a place and the segment there. -/
theorem NodesTell.mem (h : NodesTell env nodes segs) {n : M3uBaseNode} (hn : n ∈ nodes) :
    ∃ i : Nat, n.index = i ∧ i < nodes.length ∧
      ∃ seg, segs.reverse[i]? = some seg ∧ n.Keeps env seg := by
  obtain ⟨i, hi, rfl⟩ := List.mem_iff_getElem.mp (List.mem_reverse.mpr hn)
  have hlt : i < nodes.length := by simpa using hi
  obtain ⟨n', seg, hn', hseg, hindex, hkeeps, -⟩ := h.get hlt
  rw [List.getElem?_eq_getElem hi] at hn'
  cases hn'
  exact ⟨i, hindex, hlt, seg, hseg, hkeeps⟩

end

/-! ## The parser -/

/-- Nodes are still added. -/
def ParseState.Growing (env : ParseEnv) (st : ParseState) : Prop :=
  st.isIframeOnly = false ∧ st.parser.baseNodeNum ≤ env.maxBaseNodeNum

/-- What holds for the next segment is in the locals. -/
structure Pending (t : Told) (st : ParseState) : Prop where
  index : st.index = st.parser.head.length
  url : st.tmpNode.fileUrl = []
  range : RangeKept t.range st.tmpNode.readOffset st.tmpNode.fileSize
  cipherInfo : st.tmpNode.cipherInfo = st.keyinfo.isSome
  key : st.keyinfo.or (lastKey st.parser.head) = t.key
  sequence : t.segments = [] → st.tmpNode.mediaSequence = t.mediaSequence

/-- The nodes are the first segments that were told. -/
structure Tells (env : ParseEnv) (t : Told) (p : M3UParser) : Prop where
  nodes : ∃ segs, segs <:+ t.segments ∧ NodesTell env p.head segs
  num : p.baseNodeNum = p.head.length
  bound : p.head = [] ∨ (p.head.length : Int) ≤ env.maxBaseNodeNum + 1
  sequence : ∀ n ∈ p.head, n.index = 0 → n.mediaSequence = t.mediaSequence

/-- The invariant of the loop. -/
structure ParseInv (env : ParseEnv) (t : Told) (st : ParseState) : Prop where
  tells : Tells env t st.parser
  rangeEnd : st.segmentRangeOffset = t.rangeEnd
  pending : st.Growing env → NodesTell env st.parser.head t.segments ∧ Pending t st

/-- What has been told stays so. -/
structure Later (t t' : Told) : Prop where
  segments : t.segments <:+ t'.segments
  sequence : t.segments ≠ [] → t'.mediaSequence = t.mediaSequence

theorem Later.refl (t : Told) : Later t t := ⟨List.suffix_refl _, fun _ => rfl⟩

theorem Later.trans {t t' t'' : Told} (h : Later t t') (h' : Later t' t'') : Later t t'' := by
  refine ⟨h.segments.trans h'.segments, fun hne => ?_⟩
  have hne' : t'.segments ≠ [] := by
    intro he
    have hsuffix := h.segments
    rw [he] at hsuffix
    exact hne (List.suffix_nil.mp hsuffix)
  rw [h'.sequence hne', h.sequence hne]

theorem later_tag (env : ParseEnv) (t : Told) (line : List Byte) (tag : Tag) :
    Later t (t.tag env line tag) := by
  cases tag
  case mediaSequence =>
    simp only [Told.tag]
    split
    · rename_i h
      exact ⟨List.suffix_refl _, fun hne => absurd h hne⟩
    · exact Later.refl t
  case key =>
    simp only [Told.tag]
    split
    · exact ⟨List.suffix_refl _, fun _ => rfl⟩
    · exact Later.refl t
  case byterange =>
    simp only [Told.tag]
    split
    · exact ⟨List.suffix_refl _, fun _ => rfl⟩
    · exact Later.refl t
  all_goals exact Later.refl t

theorem later_line (env : ParseEnv) (t : Told) (line : List Byte) : Later t (t.line env line) := by
  unfold Told.line
  split
  · exact Later.refl t
  · split
    · split
      · exact later_tag env t line _
      · exact Later.refl t
    · exact ⟨List.suffix_cons _ _, fun _ => rfl⟩

theorem later_lines (env : ParseEnv) (t : Told) (lines : List (List Byte)) :
    Later t (lines.foldl (Told.line env) t) := by
  induction lines generalizing t with
  | nil => exact Later.refl t
  | cons line lines ih => exact (later_line env t line).trans (ih _)

section
variable {env : ParseEnv} {t t' : Told} {st st' : ParseState} {p p' : M3UParser}

theorem Tells.later (h : Tells env t p) (hl : Later t t') : Tells env t' p := by
  obtain ⟨segs, hsegs, hnodes⟩ := h.nodes
  refine ⟨⟨segs, hsegs.trans hl.segments, hnodes⟩, h.num, h.bound, fun n hn h0 => ?_⟩
  have hne : t.segments ≠ [] := by
    intro he
    rw [he] at hsegs
    have hlen := hnodes.length
    rw [List.suffix_nil.mp hsegs] at hlen
    rw [List.eq_nil_of_length_eq_zero hlen] at hn
    cases hn
  rw [hl.sequence hne]
  exact h.sequence n hn h0

/-- The two playlists have the same nodes, but for the URLs of I frames. -/
structure SameNodes (p p' : M3UParser) : Prop where
  head : p'.head.map M3uBaseNode.plain = p.head.map M3uBaseNode.plain
  num : p'.baseNodeNum = p.baseNodeNum

theorem SameNodes.length (h : SameNodes p p') : p'.head.length = p.head.length := by
  have := congrArg List.length h.head
  simpa using this

theorem SameNodes.lastKey (h : SameNodes p p') : lastKey p'.head = lastKey p.head := by
  rw [← lastKey_plain p'.head, h.head, lastKey_plain]

theorem SameNodes.nodesTell (h : SameNodes p p') {segs : List Segment}
    (hn : NodesTell env p.head segs) : NodesTell env p'.head segs := by
  rw [← nodesTell_plain, h.head, nodesTell_plain]
  exact hn

theorem Tells.same (h : Tells env t p) (hs : SameNodes p p') : Tells env t p' := by
  obtain ⟨segs, hsegs, hnodes⟩ := h.nodes
  refine ⟨⟨segs, hsegs, hs.nodesTell hnodes⟩, by rw [hs.num, hs.length, h.num], ?_, ?_⟩
  · rcases h.bound with hb | hb
    · have hlen := hs.length
      rw [hb] at hlen
      exact .inl (List.eq_nil_of_length_eq_zero hlen)
    · exact .inr (by rw [hs.length]; exact hb)
  · intro n hn h0
    have hmem : n.plain ∈ p.head.map M3uBaseNode.plain := by
      rw [← hs.head]
      exact List.mem_map_of_mem hn
    obtain ⟨m, hm, he⟩ := List.mem_map.mp hmem
    have hindex : m.plain.index = n.plain.index := by rw [he]
    have hseq : m.plain.mediaSequence = n.plain.mediaSequence := by rw [he]
    exact hseq.symm.trans (h.sequence m hm (hindex.trans h0))

/-- A step that concerns neither ranges nor keys nor numbers. -/
structure SameLocals (st st' : ParseState) : Prop where
  nodes : SameNodes st.parser st'.parser
  growing : st'.isIframeOnly = false → st.isIframeOnly = false
  index : st'.index = st.index
  keyinfo : st'.keyinfo = st.keyinfo
  rangeEnd : st'.segmentRangeOffset = st.segmentRangeOffset
  url : st'.tmpNode.fileUrl = st.tmpNode.fileUrl
  readOffset : st'.tmpNode.readOffset = st.tmpNode.readOffset
  fileSize : st'.tmpNode.fileSize = st.tmpNode.fileSize
  cipherInfo : st'.tmpNode.cipherInfo = st.tmpNode.cipherInfo
  mediaSequence : st'.tmpNode.mediaSequence = st.tmpNode.mediaSequence

theorem ParseInv.same (h : ParseInv env t st) (hs : SameLocals st st') : ParseInv env t st' := by
  refine ⟨h.tells.same hs.nodes, hs.rangeEnd.trans h.rangeEnd, fun hg => ?_⟩
  obtain ⟨hnodes, hp⟩ := h.pending ⟨hs.growing hg.1, hs.nodes.num ▸ hg.2⟩
  refine ⟨hs.nodes.nodesTell hnodes, ?_, ?_, ?_, ?_, ?_, ?_⟩
  · rw [hs.index, hs.nodes.length, hp.index]
  · rw [hs.url, hp.url]
  · rw [hs.readOffset, hs.fileSize]
    exact hp.range
  · rw [hs.cipherInfo, hs.keyinfo, hp.cipherInfo]
  · rw [hs.keyinfo, hs.nodes.lastKey, hp.key]
  · rw [hs.mediaSequence]
    exact hp.sequence

/-! ## Steps of the parser -/

theorem ParseState.media_next {st₁ : ParseState} (h : st.media st₁ = some (.next, st')) :
    st' = st₁ := by
  unfold ParseState.media at h
  split at h
  · cases h
  · cases h
    rfl

theorem parseStreamInf_same (p : M3UParser) (line : List Byte) (node : M3uBaseNode) :
    ∃ bandwidth programId codec audioGroupId videoGroupId subGroupId,
      parseStreamInf p line node = { node with
        bandwidth := bandwidth
        programId := programId
        codec := codec
        audioGroupId := audioGroupId
        videoGroupId := videoGroupId
        subGroupId := subGroupId } := by
  unfold parseStreamInf
  split
  · exact ⟨_, _, _, _, _, _, rfl⟩
  · exact ⟨_, _, _, _, _, _, rfl⟩

theorem parseMedia_eq {line : List Byte} (h : parseMedia env p line = some (some p')) :
    ∃ mediaGroupHead, p' = { p with mediaGroupHead := mediaGroupHead } := by
  unfold parseMedia at h
  split at h
  · cases h
  · obtain ⟨url, -, h⟩ := Option.bind_eq_some_iff.mp h
    split at h
    · split at h
      · cases h
        exact ⟨_, rfl⟩
      · cases h
    · cases h

theorem parseMedia_same {line : List Byte} (h : parseMedia env p line = some (some p')) :
    SameNodes p p' := by
  obtain ⟨_, rfl⟩ := parseMedia_eq h
  exact ⟨rfl, rfl⟩

/-- The nodes with another URL for the I frames of one. -/
theorem setIframeUrl_plain (nodes : List M3uBaseNode) (index : Int) (url : List Byte) :
    (nodes.map fun n => if n.index = index then { n with iframeUrl := url } else n).map
      M3uBaseNode.plain = nodes.map M3uBaseNode.plain := by
  rw [List.map_map]
  apply List.map_congr_left
  intro n hn
  dsimp only [Function.comp_apply]
  split
  · rfl
  · rfl

theorem SameLocals.refl (st : ParseState) : SameLocals st st :=
  ⟨⟨rfl, rfl⟩, id, rfl, rfl, rfl, rfl, rfl, rfl, rfl, rfl⟩

theorem ParseInv.sequenceTag {line : List Byte} (h : ParseInv env t st) :
    ParseInv env (t.tag env line .mediaSequence)
      { st with tmpNode := { st.tmpNode with mediaSequence := parseMetaData line } } := by
  have htells := h.tells.later (later_tag env t line .mediaSequence)
  simp only [Told.tag] at htells ⊢
  by_cases hempty : t.segments = []
  · rw [if_pos hempty] at htells ⊢
    refine ⟨htells, h.rangeEnd, fun hg => ?_⟩
    obtain ⟨hnodes, hp⟩ := h.pending hg
    exact ⟨hnodes, hp.index, hp.url, hp.range, hp.cipherInfo, hp.key, fun _ => rfl⟩
  · rw [if_neg hempty] at htells ⊢
    refine ⟨htells, h.rangeEnd, fun hg => ?_⟩
    obtain ⟨hnodes, hp⟩ := h.pending hg
    exact ⟨hnodes, hp.index, hp.url, hp.range, hp.cipherInfo, hp.key, fun he => absurd he hempty⟩

theorem ParseInv.setKey {info : M3uKeyInfo} (h : ParseInv env t st) :
    ParseInv env { t with key := some info }
      { st with keyinfo := some info, tmpNode := { st.tmpNode with cipherInfo := true } } := by
  refine ⟨h.tells.later ⟨List.suffix_refl _, fun _ => rfl⟩, h.rangeEnd, fun hg => ?_⟩
  obtain ⟨hnodes, hp⟩ := h.pending hg
  exact ⟨hnodes, hp.index, hp.url, hp.range, rfl, rfl, hp.sequence⟩

theorem ParseInv.setRange {r : Nat × Nat} {rangeEnd : Nat} {readOffset fileSize : Int}
    (h : ParseInv env t st) (hkept : RangeKept (some r) readOffset fileSize) :
    ParseInv env { t with range := some r, rangeEnd := rangeEnd }
      { st with
        segmentRangeOffset := rangeEnd
        tmpNode := { st.tmpNode with fileSize := fileSize, readOffset := readOffset } } := by
  refine ⟨h.tells.later ⟨List.suffix_refl _, fun _ => rfl⟩, rfl, fun hg => ?_⟩
  obtain ⟨hnodes, hp⟩ := h.pending hg
  exact ⟨hnodes, hp.index, hp.url, hkept, hp.cipherInfo, hp.key, hp.sequence⟩

/-- The range of an I frame. -/
theorem ParseInv.setIframeRange {r : Nat × Nat} {rangeEnd : Nat} {node : M3uIframeNode}
    (h : ParseInv env t st) (hiframe : st.isIframeOnly = true) :
    ParseInv env { t with range := some r, rangeEnd := rangeEnd }
      { st with segmentRangeOffset := rangeEnd, tmpIframeNode := node } := by
  refine ⟨h.tells.later ⟨List.suffix_refl _, fun _ => rfl⟩, rfl, fun hg => ?_⟩
  have hg : st.isIframeOnly = false := hg.1
  rw [hiframe] at hg
  cases hg

theorem ParseInv.byterangeTag {line : List Byte} (h : ParseInv env t st)
    (hp : parseTag env st line .byterange = some (.next, st')) :
    ParseInv env (t.tag env line .byterange) st' := by
  obtain rfl := ParseState.media_next hp
  rw [h.rangeEnd]
  simp only [Told.tag]
  cases parseByteRange line t.rangeEnd with
  | none => exact h
  | some r =>
    dsimp only
    split
    · rename_i hiframe
      exact h.setIframeRange hiframe
    · exact h.setRange ⟨rfl, rfl⟩

theorem ParseInv.tag {line : List Byte} {tag : Tag} (h : ParseInv env t st)
    (hp : parseTag env st line tag = some (.next, st')) :
    ParseInv env (t.tag env line tag) st' := by
  cases tag
  case mediaSequence =>
    simp only [parseTag] at hp
    split at hp
    · cases hp
    · cases hp
      exact h.sequenceTag
  case key =>
    simp only [parseTag] at hp
    split at hp
    · cases hp
    · obtain ⟨info, hinfo, hp⟩ := Option.bind_eq_some_iff.mp hp
      cases info with
      | none => cases hp
      | some info =>
        cases hp
        simp only [Told.tag, hinfo]
        exact h.setKey
  case byterange => exact h.byterangeTag hp
  case targetduration =>
    simp only [parseTag] at hp
    split at hp
    · cases hp
    · cases hp
      exact h.same ⟨⟨rfl, rfl⟩, id, rfl, rfl, rfl, rfl, rfl, rfl, rfl, rfl⟩
  case endlist =>
    cases hp
    exact h.same ⟨⟨rfl, rfl⟩, id, rfl, rfl, rfl, rfl, rfl, rfl, rfl, rfl⟩
  case inf =>
    have hp := ParseState.media_next hp
    subst hp
    split
    · exact h.same ⟨⟨rfl, rfl⟩, id, rfl, rfl, rfl, rfl, rfl, rfl, rfl, rfl⟩
    · exact h.same ⟨⟨rfl, rfl⟩, id, rfl, rfl, rfl, rfl, rfl, rfl, rfl, rfl⟩
  case discontinuity =>
    have hp := ParseState.media_next hp
    subst hp
    exact h.same ⟨⟨rfl, rfl⟩, id, rfl, rfl, rfl, rfl, rfl, rfl, rfl, rfl⟩
  case media =>
    obtain ⟨o, hmedia, hp⟩ := Option.bind_eq_some_iff.mp hp
    cases o with
    | none => cases hp
    | some parser =>
      cases hp
      exact h.same ⟨parseMedia_same hmedia, id, rfl, rfl, rfl, rfl, rfl, rfl, rfl, rfl⟩
  case streamInf =>
    cases hp
    obtain ⟨_, _, _, _, _, _, hnode⟩ := parseStreamInf_same st.parser line st.tmpNode
    rw [hnode]
    exact h.same ⟨⟨rfl, rfl⟩, id, rfl, rfl, rfl, rfl, rfl, rfl, rfl, rfl⟩
  case iFrameStreamInf =>
    simp only [parseTag] at hp
    split at hp
    · cases hp
      exact h.same (SameLocals.refl st)
    · obtain ⟨node, -, hp⟩ := Option.bind_eq_some_iff.mp hp
      obtain ⟨url, -, hp⟩ := Option.bind_eq_some_iff.mp hp
      cases hp
      exact h.same ⟨⟨setIframeUrl_plain _ _ _, rfl⟩, id, rfl, rfl, rfl, rfl, rfl, rfl, rfl, rfl⟩
  case iFramesOnly =>
    cases hp
    exact h.same ⟨⟨rfl, rfl⟩, nofun, rfl, rfl, rfl, rfl, rfl, rfl, rfl, rfl⟩
  case allowCache =>
    cases hp
    exact h.same ⟨⟨rfl, rfl⟩, id, rfl, rfl, rfl, rfl, rfl, rfl, rfl, rfl⟩
  case version =>
    cases hp
    exact h.same (SameLocals.refl st)
  case programDateTime =>
    simp only [parseTag] at hp
    split at hp
    · cases hp
    · cases hp
      exact h.same (SameLocals.refl st)

/-- A line that is left with another flow adds no node. -/
theorem parseTag_stop {line : List Byte} {tag : Tag} {flow : Flow}
    (h : parseTag env st line tag = some (flow, st')) (hflow : flow ≠ .next) :
    SameNodes st.parser st'.parser := by
  have hmedia : ∀ st₁, st.media st₁ = some (flow, st') → SameNodes st.parser st'.parser := by
    intro st₁ h
    unfold ParseState.media at h
    split at h
    · cases h
      exact ⟨rfl, rfl⟩
    · cases h
      exact absurd rfl hflow
  cases tag
  case inf => exact hmedia _ h
  case discontinuity => exact hmedia _ h
  case byterange => exact hmedia _ h
  case key =>
    simp only [parseTag] at h
    split at h
    · cases h
      exact ⟨rfl, rfl⟩
    · obtain ⟨info, -, h⟩ := Option.bind_eq_some_iff.mp h
      cases info with
      | none =>
        cases h
        exact ⟨rfl, rfl⟩
      | some info =>
        cases h
        exact absurd rfl hflow
  case media =>
    obtain ⟨o, -, h⟩ := Option.bind_eq_some_iff.mp h
    cases o with
    | none =>
      cases h
      exact ⟨rfl, rfl⟩
    | some parser =>
      cases h
      exact absurd rfl hflow
  case iFrameStreamInf =>
    simp only [parseTag] at h
    split at h
    · cases h
      exact absurd rfl hflow
    · obtain ⟨node, -, h⟩ := Option.bind_eq_some_iff.mp h
      obtain ⟨url, -, h⟩ := Option.bind_eq_some_iff.mp h
      cases h
      exact absurd rfl hflow
  all_goals
    simp only [parseTag] at h
    first
    | cases h
      exact absurd rfl hflow
    | split at h
      · cases h
        exact ⟨rfl, rfl⟩
      · cases h
        exact absurd rfl hflow

theorem head_of_tagOf {line : List Byte} {tag : Tag} (h : tagOf line = some tag) :
    line.head? = some 0x23 := by
  obtain ⟨entry, hfind, -⟩ := Option.map_eq_some_iff.mp h
  have hall : ∀ entry ∈ tags, entry.1.head? = some 0x23 := by decide
  have hhead := hall entry (List.mem_of_find?_eq_some hfind)
  have hprefix := List.find?_some hfind
  obtain ⟨rest, rfl⟩ := List.isPrefixOf_iff_prefix.mp hprefix
  rw [List.head?_append, hhead]
  rfl

/-- A node for what is pending. -/
theorem Pending.nodesTell {line url : List Byte} (startUs : Int) (hp : Pending t st)
    (hnodes : NodesTell env st.parser.head t.segments)
    (hurl : makeUrl env.hostOf maxUrlSize [] env.baseUrl line = some url) :
    NodesTell env ({ st.tmpNode with
        key := st.keyinfo, startUs := startUs, fileUrl := url, index := st.index } ::
      st.parser.head) (⟨line, t.range, t.key⟩ :: t.segments) := by
  refine ⟨hp.index, ⟨hurl, hp.range, hp.cipherInfo⟩, ?_, hnodes⟩
  have hkey := hp.key
  unfold lastKey at hkey ⊢
  rw [List.findSome?_cons]
  cases hinfo : st.keyinfo with
  | none =>
    rw [hinfo] at hkey
    exact hkey
  | some info =>
    rw [hinfo] at hkey
    exact hkey

/-- The URI of a segment. -/
theorem ParseInv.uri {line : List Byte} (h : ParseInv env t st) (hiframe : st.isIframeOnly = false)
    (hp : parseUri env st line = some st') :
    ParseInv env { t with segments := ⟨line, t.range, t.key⟩ :: t.segments, range := none } st' := by
  obtain ⟨url, hurl, hp⟩ := Option.bind_eq_some_iff.mp hp
  cases hp
  have hlater : Later t
      { t with segments := ⟨line, t.range, t.key⟩ :: t.segments, range := none } :=
    ⟨List.suffix_cons _ _, fun _ => rfl⟩
  have htells := h.tells.later hlater
  by_cases hnum : st.parser.baseNodeNum ≤ env.maxBaseNodeNum
  · obtain ⟨hnodes, hpend⟩ := h.pending ⟨hiframe, hnum⟩
    rw [hpend.url] at hurl
    have hnew := hpend.nodesTell
      (if st.isVariantPlaylist then st.tmpNode.startUs else st.parser.durationUs) hnodes hurl
    unfold M3UParser.addNode
    rw [if_neg (by dsimp only; omega)]
    have hlen := h.tells.num
    refine ⟨⟨⟨_, List.suffix_refl _, hnew⟩, ?_, .inr ?_, ?_⟩, h.rangeEnd, fun _ => ⟨hnew, ?_⟩⟩
    · dsimp only
      rw [List.length_cons, hlen]
      rfl
    · dsimp only
      rw [List.length_cons]
      omega
    · intro n hn h0
      rcases List.mem_cons.mp hn with rfl | hn
      · have hindex : (st.parser.head.length : Int) = 0 := hpend.index.symm.trans h0
        have hempty : t.segments = [] := by
          apply List.eq_nil_of_length_eq_zero
          rw [← hnodes.length]
          omega
        exact hpend.sequence hempty
      · exact h.tells.sequence n hn h0
    · refine ⟨?_, rfl, ⟨rfl, Int.le_refl 0⟩, rfl, hnew.2.2.1, nofun⟩
      dsimp only
      rw [hpend.index, List.length_cons]
      rfl
  · unfold M3UParser.addNode
    rw [if_pos (by dsimp only; omega)]
    refine ⟨⟨htells.nodes, htells.num, htells.bound, htells.sequence⟩, h.rangeEnd, fun hg => ?_⟩
    exact absurd hg.2 hnum

/-- The URI of an I frame. -/
theorem ParseInv.iframeUri {line : List Byte} (h : ParseInv env t st)
    (hiframe : st.isIframeOnly = true) (hp : parseIframeUri env st line = some st') :
    ParseInv env { t with segments := ⟨line, t.range, t.key⟩ :: t.segments, range := none } st' := by
  obtain ⟨uri, -, hp⟩ := Option.bind_eq_some_iff.mp hp
  cases hp
  have hlater : Later t
      { t with segments := ⟨line, t.range, t.key⟩ :: t.segments, range := none } :=
    ⟨List.suffix_cons _ _, fun _ => rfl⟩
  have htells := h.tells.later hlater
  refine ⟨⟨htells.nodes, htells.num, htells.bound, htells.sequence⟩, h.rangeEnd, fun hg => ?_⟩
  have hg : st.isIframeOnly = false := hg.1
  rw [hiframe] at hg
  cases hg

theorem ParseInv.extm3u (h : ParseInv env t st) : ParseInv env t st.extm3u := by
  unfold ParseState.extm3u
  split
  · exact h.same ⟨⟨rfl, rfl⟩, id, rfl, rfl, rfl, rfl, rfl, rfl, rfl, rfl⟩
  · exact h

/-- A line with a tag, or a comment. -/
theorem ParseInv.tagLine {line : List Byte} (h : ParseInv env t st)
    (hp : parseTags env st line = some (.next, st')) :
    ParseInv env (match tagOf line with
      | some tag => t.tag env line tag
      | none => t) st' := by
  unfold parseTags at hp
  cases htag : tagOf line with
  | none =>
    rw [htag] at hp
    cases hp
    exact h
  | some tag =>
    rw [htag] at hp
    exact h.tag hp

/-- A URI has no tag. -/
theorem parseTags_uri {line : List Byte} {flow : Flow} (hhead : line.head? ≠ some 0x23)
    (htags : parseTags env st line = some (flow, st')) : st' = st := by
  have htag : tagOf line = none := by
    cases htag : tagOf line with
    | none => rfl
    | some tag => exact absurd (head_of_tagOf htag) hhead
  unfold parseTags at htags
  rw [htag] at htags
  cases htags
  rfl

/-- A line with a URI. -/
theorem ParseInv.uriLine {line : List Byte} {st₁ : ParseState} (h : ParseInv env t st)
    (hhead : line.head? ≠ some 0x23) (htags : parseTags env st line = some (.next, st₁))
    (hp : parseNode env st₁ line = some st') :
    ParseInv env { t with segments := ⟨line, t.range, t.key⟩ :: t.segments, range := none } st' := by
  obtain rfl := parseTags_uri hhead htags
  unfold parseNode at hp
  rw [if_neg hhead] at hp
  split at hp
  · rename_i hiframe
    exact h.iframeUri hiframe hp
  · rename_i hiframe
    exact h.uri (Bool.eq_false_iff.mpr hiframe) hp

/-- A round after which the loop goes on: a blank line, or a tag and a URI. -/
theorem parseLine_next {line : List Byte} (hp : parseLine env st line = some (.next, st')) :
    line = [] ∧ st' = st ∨ line ≠ [] ∧ ∃ st₁ st₂, parseTags env st.extm3u line = some (.next, st₁) ∧
      parseNode env st₁ line = some st₂ ∧ st' = { st₂ with lineNo := st₂.lineNo + 1 } := by
  unfold parseLine at hp
  split at hp
  · cases hp
  · split at hp
    · rename_i hempty
      cases hp
      exact .inl ⟨hempty, rfl⟩
    · rename_i hline
      split at hp
      · cases hp
      · obtain ⟨⟨flow, st₁⟩, htags, hp⟩ := Option.bind_eq_some_iff.mp hp
        split at hp
        · rename_i hflow
          cases hp
          exact absurd rfl hflow
        · rename_i hflow
          obtain rfl : flow = .next := not_not.mp hflow
          obtain ⟨st₂, hnode, hp⟩ := Option.bind_eq_some_iff.mp hp
          cases hp
          exact .inr ⟨hline, st₁, st₂, htags, hnode, rfl⟩

/-- One round of the loop. -/
theorem ParseInv.line {line : List Byte} (h : ParseInv env t st)
    (hp : parseLine env st line = some (.next, st')) : ParseInv env (t.line env line) st' := by
  unfold Told.line
  obtain ⟨hempty, rfl⟩ | ⟨hline, st₁, st₂, htags, hnode, rfl⟩ := parseLine_next hp
  · rw [if_pos hempty]
    exact h
  · rw [if_neg hline]
    suffices hinv : ParseInv env _ st₂ from
      hinv.same ⟨⟨rfl, rfl⟩, id, rfl, rfl, rfl, rfl, rfl, rfl, rfl, rfl⟩
    split
    · rename_i hhead
      unfold parseNode at hnode
      rw [if_pos hhead] at hnode
      cases hnode
      exact h.extm3u.tagLine htags
    · rename_i hhead
      exact h.extm3u.uriLine hhead htags hnode

/-- A round after which the loop is left. -/
theorem ParseInv.stop {line : List Byte} {flow : Flow} (h : ParseInv env t st)
    (hp : parseLine env st line = some (flow, st')) (hflow : flow ≠ .next) :
    Tells env t st'.parser := by
  unfold parseLine at hp
  split at hp
  · cases hp
  · split at hp
    · cases hp
      exact absurd rfl hflow
    · split at hp
      · cases hp
        exact h.tells
      · obtain ⟨⟨flow₁, st₁⟩, htags, hp⟩ := Option.bind_eq_some_iff.mp hp
        split at hp
        · cases hp
          refine h.extm3u.tells.same ?_
          unfold parseTags at htags
          split at htags
          · cases htags
            exact absurd rfl hflow
          · exact parseTag_stop htags hflow
        · obtain ⟨st₂, -, hp⟩ := Option.bind_eq_some_iff.mp hp
          cases hp
          exact absurd rfl hflow

theorem parseLines_tells {lines : List (List Byte)} {flow : Flow} (h : ParseInv env t st)
    (hp : parseLines env lines st = some (flow, st')) :
    Tells env (lines.foldl (Told.line env) t) st'.parser := by
  induction lines generalizing t st with
  | nil =>
    cases hp
    exact h.tells
  | cons line lines ih =>
    obtain ⟨⟨flow₁, st₁⟩, hline, hp⟩ := Option.bind_eq_some_iff.mp hp
    split at hp
    · rename_i hnext
      obtain rfl : flow₁ = .next := hnext
      exact ih (h.line hline) hp
    · rename_i hstop
      cases hp
      exact (h.stop hline hstop).later (later_lines env t (line :: lines))

theorem parseInv_init : ParseInv env ⟨[], none, 0, none, 0⟩ ParseState.init := by
  have htells : NodesTell env ParseState.init.parser.head [] := trivial
  have hrange : RangeKept none 0 (-1) := ⟨rfl, by decide⟩
  constructor
  · exact ⟨⟨[], List.suffix_refl _, htells⟩, rfl, .inl rfl, fun n hn => nomatch hn⟩
  · rfl
  · intro _
    exact ⟨htells, rfl, rfl, hrange, rfl, rfl, fun _ => rfl⟩

/-- **The nodes of a playlist are what its text tells.** -/
theorem m3uParse_tells {text : List Byte} (h : m3uParse env text = some (some p)) :
    Tells env (told env text) p := by
  obtain ⟨⟨flow, st⟩, hlines, h⟩ := Option.bind_eq_some_iff.mp h
  split at h
  · cases h
  · cases h
    exact (parseLines_tells parseInv_init hlines).same ⟨rfl, rfl⟩

end

/-- A parser for texts with durations of 10 seconds. -/
def tenSeconds : ParseEnv where
  baseUrl := bytes "http://h/l.m3u8"
  maxBaseNodeNum := 32768
  durationUs := fun _ => 10000000
  hostOf := fun _ => bytes "h"
  junk := []

end VendorAmlogic.Hls
