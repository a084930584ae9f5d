import VendorAmlogic.Hls.Text

/-!
# The layout of a playlist

What the parser makes of a text does not depend on how its lines end, on blank
lines, and on comments behind the first line. The only local that such lines
change is `lineNo`, and the parser only asks whether it is zero. A mark of the
byte order is cut at the very front of a text, so nothing may come before it.
-/

namespace VendorAmlogic.Hls

open VendorAmlogic.Lib

/-! ## Layouts of a text -/

/-- A line without its end. -/
structure Plain (l : List Byte) : Prop where
  feed : 0x0a ∉ l
  nul : 0 ∉ l
  return_ : 0x0d ∉ l

/-- A line feed, or a carriage return before it. -/
def LineEnd (e : List Byte) : Prop := e = [0x0a] ∨ e = [0x0d, 0x0a]

/-- A line that starts with `#` but not with `#EXT`, and that fits the buffer. -/
structure Comment (c : List Byte) : Prop where
  plain : Plain c
  head : c.head? = some 0x23
  no_tag : ¬ bytes "#EXT" <+: c
  fits : c.length < lineSizeMax

/-- The second text has the lines of the first one, in another layout. The flag tells whether a
line that is not blank came before. -/
inductive Relaid : Bool → List Byte → List Byte → Prop
  | last {b : Bool} {l : List Byte} (hl : Plain l) : Relaid b l l
  | dropEnd {b : Bool} {l : List Byte} (hl : Plain l) : Relaid b (l ++ [0x0a]) l
  | lastComment {c : List Byte} (hc : Comment c) : Relaid true [] c
  | line {b : Bool} {l e t t' : List Byte} (hl : Plain l) (he : LineEnd e)
      (h : Relaid (b || !l.isEmpty) t t') : Relaid b (l ++ 0x0a :: t) (l ++ (e ++ t'))
  | blank {b : Bool} {e t t' : List Byte} (he : LineEnd e) (h : Relaid b t t') :
      Relaid b t (e ++ t')
  | ended {b : Bool} {l e t' : List Byte} (hl : Plain l) (he : LineEnd e)
      (h : Relaid (b || !l.isEmpty) [] t') : Relaid b l (l ++ (e ++ t'))
  | comment {c e t t' : List Byte} (hc : Comment c) (he : LineEnd e) (h : Relaid true t t') :
      Relaid true t (c ++ (e ++ t'))

/-- The marks of the byte order. -/
def marks : List (List Byte) := [[0xef, 0xbb, 0xbf], [0xff, 0xfe], [0xfe, 0xff]]

/-- Another layout of a text, behind its mark of the byte order if it has one. -/
inductive RelaidText : List Byte → List Byte → Prop
  | marked {m t t' : List Byte} (hm : m ∈ marks) (h : Relaid false t t') :
      RelaidText (m ++ t) (m ++ t')
  | plain {t t' : List Byte} (hm : ∀ m ∈ marks, ¬ m <+: t) (h : Relaid false t t') :
      RelaidText t t'

/-! ## The number of a line -/

/-- The states differ at most in the number of the line, which is zero in both or in none. -/
structure Alike (st st' : ParseState) : Prop where
  eq : { st with lineNo := st'.lineNo } = st'
  zero : st.lineNo = 0 ↔ st'.lineNo = 0

theorem Alike.refl (st : ParseState) : Alike st st := ⟨rfl, Iff.rfl⟩

section
variable (env : ParseEnv) (st : ParseState) (line : List Byte) (n : Nat)

/-- A state with another number of the line. -/
def ParseState.renumber (st : ParseState) (n : Nat) : ParseState := { st with lineNo := n }

theorem media_renumber (st' : ParseState) :
    (st.renumber n).media (st'.renumber n) =
      (st.media st').map fun r => (r.1, r.2.renumber n) := by
  unfold ParseState.media
  cases hv : st.isVariantPlaylist <;> simp [ParseState.renumber, hv]

theorem parseTag_renumber (tag : Tag) :
    parseTag env (st.renumber n) line tag =
      (parseTag env st line tag).map fun r => (r.1, r.2.renumber n) := by
  cases tag with
  | targetduration =>
    cases hv : st.isVariantPlaylist <;> simp [parseTag, ParseState.renumber, hv]
  | mediaSequence =>
    cases hv : st.isVariantPlaylist <;> simp [parseTag, ParseState.renumber, hv]
  | key =>
    cases hv : st.isVariantPlaylist with
    | true => simp [parseTag, ParseState.renumber, hv]
    | false =>
      cases hc : parseCipherInfo env line with
      | none => simp [parseTag, ParseState.renumber, hv, hc]
      | some info => cases info <;> simp [parseTag, ParseState.renumber, hv, hc]
  | endlist => simp [parseTag, ParseState.renumber]
  | inf =>
    rw [parseTag, parseTag, ← media_renumber]
    congr 1
    cases hi : st.isIframeOnly <;> simp [ParseState.renumber, hi]
  | discontinuity =>
    rw [parseTag, parseTag, ← media_renumber]
    rfl
  | media =>
    cases hm : parseMedia env st.parser line with
    | none => simp [parseTag, ParseState.renumber, hm]
    | some r => cases r <;> simp [parseTag, ParseState.renumber, hm]
  | streamInf => simp [parseTag, ParseState.renumber]
  | iFrameStreamInf =>
    rw [parseTag, parseTag]
    cases (attributes (trim line)).bind fun attrs =>
      setField (field attrs (bytes "URI=") maxUrlSize) with
    | none => rfl
    | some uri =>
      simp only [ParseState.renumber, Option.bind_eq_bind, Option.map_bind]
      congr 1
      funext node
      simp only [Function.comp, Option.map_bind]
      congr 1
  | iFramesOnly => simp [parseTag, ParseState.renumber]
  | allowCache => simp [parseTag, ParseState.renumber]
  | version => simp [parseTag, ParseState.renumber]
  | programDateTime =>
    cases hv : st.isVariantPlaylist <;> simp [parseTag, ParseState.renumber, hv]
  | byterange =>
    rw [parseTag, parseTag, ← media_renumber]
    congr 1
    have hr : (st.renumber n).segmentRangeOffset = st.segmentRangeOffset := rfl
    rw [hr]
    cases parseByteRange line st.segmentRangeOffset with
    | none => rfl
    | some r => cases hi : st.isIframeOnly <;> simp [ParseState.renumber, hi]

theorem parseTags_renumber :
    parseTags env (st.renumber n) line =
      (parseTags env st line).map fun r => (r.1, r.2.renumber n) := by
  unfold parseTags
  cases tagOf line with
  | none => rfl
  | some tag => exact parseTag_renumber env st line n tag

theorem parseIframeUri_renumber :
    parseIframeUri env (st.renumber n) line = (parseIframeUri env st line).map (·.renumber n) := by
  have huri : iframeUri env (st.renumber n) line = iframeUri env st line := rfl
  rw [parseIframeUri, parseIframeUri, huri]
  cases iframeUri env st line <;> rfl

theorem parseUri_renumber :
    parseUri env (st.renumber n) line = (parseUri env st line).map (·.renumber n) := by
  have hnode : (st.renumber n).tmpNode = st.tmpNode := rfl
  rw [parseUri, parseUri, hnode]
  cases makeUrl env.hostOf maxUrlSize st.tmpNode.fileUrl env.baseUrl line <;> rfl

theorem parseNode_renumber :
    parseNode env (st.renumber n) line = (parseNode env st line).map (·.renumber n) := by
  have hiframe : (st.renumber n).isIframeOnly = st.isIframeOnly := rfl
  rw [parseNode, parseNode, hiframe]
  split
  · rfl
  · split
    · exact parseIframeUri_renumber env st line n
    · exact parseUri_renumber env st line n

end

/-- Results that stop at the same place in states that are alike. -/
def AlikeResults (r r' : Option (Flow × ParseState)) : Prop :=
  Option.Rel (fun a a' => a.1 = a'.1 ∧ Alike a.2 a'.2) r r'

variable {env : ParseEnv} {st st' : ParseState}

theorem alike_iff : Alike st st' ↔ st' = st.renumber st'.lineNo ∧ (st.lineNo = 0 ↔ st'.lineNo = 0) :=
  ⟨fun h => ⟨h.eq.symm, h.zero⟩, fun h => ⟨h.1.symm, h.2⟩⟩

/-- The tags leave the number of the line as it is. -/
theorem lineNo_of_parseTags {line : List Byte} {r : Flow × ParseState}
    (h : parseTags env st line = some r) : r.2.lineNo = st.lineNo := by
  have hself := parseTags_renumber env st line st.lineNo
  have hst : st.renumber st.lineNo = st := rfl
  rw [hst, h, Option.map_some, Option.some.injEq] at hself
  exact congrArg (fun r => r.2.lineNo) hself

/-- A line takes states that are alike to states that are alike. -/
theorem Alike.parseLine (h : Alike st st') (line : List Byte) :
    AlikeResults (parseLine env st line) (Hls.parseLine env st' line) := by
  obtain ⟨heq, hzero⟩ := alike_iff.1 h
  generalize st'.lineNo = n at heq hzero
  subst heq
  have hn : (st.renumber n).lineNo = n := rfl
  unfold Hls.parseLine
  split
  · exact .none
  split
  · exact .some ⟨rfl, h⟩
  by_cases hbad : st.lineNo = 0 ∧ (bytes "#EXTM3U").isPrefixOf line = false
  · rw [if_pos hbad, if_pos (by rw [hn]; exact ⟨hzero.1 hbad.1, hbad.2⟩)]
    exact .some ⟨rfl, h⟩
  rw [if_neg hbad, if_neg (by rw [hn]; exact fun hb => hbad ⟨hzero.2 hb.1, hb.2⟩)]
  have hext : (st.renumber n).extm3u = st.extm3u.renumber n := by
    by_cases h0 : st.lineNo = 0
    · have h0' : (st.renumber n).lineNo = 0 := hzero.1 h0
      rw [ParseState.extm3u, ParseState.extm3u, if_pos h0, if_pos h0']
      rfl
    · have h0' : (st.renumber n).lineNo ≠ 0 := mt hzero.2 h0
      rw [ParseState.extm3u, ParseState.extm3u, if_neg h0, if_neg h0']
  have hkeep : st.extm3u.lineNo = st.lineNo := by
    unfold ParseState.extm3u
    split <;> rfl
  rw [hext, parseTags_renumber]
  cases ht : parseTags env st.extm3u line with
  | none => exact .none
  | some r =>
    have hr : r.2.lineNo = 0 ↔ n = 0 := by rw [lineNo_of_parseTags ht, hkeep, hzero]
    simp only [Option.bind_eq_bind, Option.bind_some, Option.map_some]
    by_cases hflow : r.1 = .next
    · rw [if_neg (not_not.2 hflow), if_neg (not_not.2 hflow), parseNode_renumber]
      cases parseNode env r.2 line with
      | none => exact .none
      | some s => exact .some ⟨rfl, alike_iff.2 ⟨rfl, by simp⟩⟩
    · rw [if_pos hflow, if_pos hflow]
      exact .some ⟨rfl, alike_iff.2 ⟨rfl, hr⟩⟩

theorem AlikeResults.cases {r r' : Option (Flow × ParseState)} (h : AlikeResults r r') :
    (r = none ∧ r' = none) ∨ ∃ f s s', r = some (f, s) ∧ r' = some (f, s') ∧ Alike s s' := by
  cases h with
  | none => exact .inl ⟨rfl, rfl⟩
  | @some a a' hrel =>
    obtain ⟨f, s⟩ := a
    obtain ⟨f', s'⟩ := a'
    obtain ⟨rfl, hal⟩ := hrel
    exact .inr ⟨f, s, s', rfl, rfl, hal⟩

/-! ## The lines of a layout -/

/-- The lines as the loop gets them. -/
def linesAt (t : List Byte) : List (List Byte) := (linesOf t).map cutReturn

theorem linesOf_line {l t : List Byte} (hfeed : 0x0a ∉ l) (hnul : 0 ∉ l) :
    linesOf (l ++ 0x0a :: t) = l :: linesOf t := by
  induction l with
  | nil => rfl
  | cons c l ih =>
    rw [List.mem_cons, not_or] at hfeed hnul
    rw [List.cons_append, linesOf, ih hfeed.2 hnul.2, if_neg]
    rintro (h | h)
    · exact hfeed.1 h.symm
    · exact hnul.1 h.symm

theorem linesOf_last {l : List Byte} (hfeed : 0x0a ∉ l) (hnul : 0 ∉ l) : linesOf l = [l] := by
  induction l with
  | nil => rfl
  | cons c l ih =>
    rw [List.mem_cons, not_or] at hfeed hnul
    rw [linesOf, ih hfeed.2 hnul.2, if_neg]
    rintro (h | h)
    · exact hfeed.1 h.symm
    · exact hnul.1 h.symm

theorem Plain.cutReturn {l : List Byte} (h : Plain l) : cutReturn l = l := by
  refine if_neg fun hlast => h.return_ ?_
  exact List.mem_of_getLast? hlast

theorem linesAt_last {l : List Byte} (h : Plain l) : linesAt l = [l] := by
  rw [linesAt, linesOf_last h.feed h.nul, List.map_singleton, h.cutReturn]

theorem linesAt_line {l e t : List Byte} (h : Plain l) (he : LineEnd e) :
    linesAt (l ++ (e ++ t)) = l :: linesAt t := by
  rcases he with rfl | rfl
  · rw [linesAt, List.singleton_append, linesOf_line h.feed h.nul, List.map_cons, h.cutReturn]
    rfl
  · have hfeed : 0x0a ∉ l ++ [0x0d] := by
      rw [List.mem_append, not_or]
      exact ⟨h.feed, by decide⟩
    have hnul : 0 ∉ l ++ [0x0d] := by
      rw [List.mem_append, not_or]
      exact ⟨h.nul, by decide⟩
    have hcut : Hls.cutReturn (l ++ [0x0d]) = l := by simp [Hls.cutReturn]
    have hsplit : l ++ ([0x0d, 0x0a] ++ t) = (l ++ [0x0d]) ++ 0x0a :: t := by simp
    rw [linesAt, hsplit, linesOf_line hfeed hnul, List.map_cons, hcut]
    rfl

theorem plain_nil : Plain [] := ⟨by simp, by simp, by simp⟩

theorem linesAt_blank {e t : List Byte} (he : LineEnd e) : linesAt (e ++ t) = [] :: linesAt t :=
  linesAt_line plain_nil he

/-! ## Neutral lines -/

theorem parseLine_blank : parseLine env st [] = some (.next, st) := rfl

theorem parseLines_blank (lines : List (List Byte)) :
    parseLines env ([] :: lines) st = parseLines env lines st := by
  rw [parseLines, parseLine_blank]
  rfl

theorem ext_of_tagOf {line : List Byte} {tag : Tag} (h : tagOf line = some tag) :
    bytes "#EXT" <+: line := by
  obtain ⟨entry, hfind, -⟩ := Option.map_eq_some_iff.mp h
  have hall : ∀ entry ∈ tags, (bytes "#EXT").isPrefixOf entry.1 = true := by decide
  have hext := List.isPrefixOf_iff_prefix.1 (hall entry (List.mem_of_find?_eq_some hfind))
  have hfound := List.find?_some hfind
  exact hext.trans (List.isPrefixOf_iff_prefix.1 hfound)

/-- A comment behind the first line only counts. -/
theorem parseLine_comment {c : List Byte} (hc : Comment c) (h0 : st.lineNo ≠ 0) :
    parseLine env st c = some (.next, st.renumber (st.lineNo + 1)) := by
  have htag : tagOf c = none := by
    cases htag : tagOf c with
    | none => rfl
    | some tag => exact absurd (ext_of_tagOf htag) hc.no_tag
  have hne : c ≠ [] := by
    intro hnil
    have := hc.head
    simp [hnil] at this
  have hext : st.extm3u = st := if_neg h0
  rw [parseLine, if_neg (by have := hc.fits; omega), if_neg hne, if_neg (fun h => h0 h.1), hext,
    parseTags, htag]
  simp only [Option.bind_eq_bind, Option.bind_some, parseNode, hc.head, if_true]
  rfl

theorem parseLines_comment {c : List Byte} (hc : Comment c) (h0 : st.lineNo ≠ 0)
    (lines : List (List Byte)) :
    parseLines env (c :: lines) st = parseLines env lines (st.renumber (st.lineNo + 1)) := by
  rw [parseLines, parseLine_comment hc h0]
  rfl

theorem Alike.renumber (h : Alike st st') (h0 : st.lineNo ≠ 0) {n : Nat} (hn : n ≠ 0) :
    Alike st (st'.renumber n) := by
  obtain ⟨heq, -⟩ := alike_iff.1 h
  refine alike_iff.2 ⟨?_, iff_of_false h0 hn⟩
  rw [heq]
  rfl

/-- Behind a line that is not blank the number is not zero. -/
theorem lineNo_ne_of_parseLine {line : List Byte} {st₁ : ParseState}
    (h : parseLine env st line = some (.next, st₁)) (hne : line ≠ [] ∨ st.lineNo ≠ 0) :
    st₁.lineNo ≠ 0 := by
  unfold parseLine at h
  split at h
  · cases h
  split at h
  · rename_i hnil
    cases h
    exact hne.resolve_left (not_not.2 hnil)
  split at h
  · cases h
  obtain ⟨r, -, hr⟩ := Option.bind_eq_some_iff.1 h
  split at hr
  · rename_i hflow
    cases hr
    exact absurd rfl hflow
  · obtain ⟨s, -, hs⟩ := Option.bind_eq_some_iff.1 hr
    cases hs
    exact Nat.succ_ne_zero _

/-- Both layouts have the same line first. -/
theorem AlikeResults.cons {line : List Byte} {ls ls' : List (List Byte)} {b : Bool}
    (h : Alike st st') (hb : b = true → st.lineNo ≠ 0)
    (hrest : ∀ s s', Alike s s' → ((b || !line.isEmpty) = true → s.lineNo ≠ 0) →
      AlikeResults (parseLines env ls s) (parseLines env ls' s')) :
    AlikeResults (parseLines env (line :: ls) st) (parseLines env (line :: ls') st') := by
  have hline : AlikeResults (parseLine env st line) (parseLine env st' line) := h.parseLine line
  rw [parseLines, parseLines]
  rcases hline.cases with ⟨hr, hr'⟩ | ⟨f, s, s', hr, hr', hal⟩
  · rw [hr, hr']
    exact .none
  · rw [hr, hr']
    simp only [Option.bind_eq_bind, Option.bind_some]
    by_cases hnext : f = .next
    · rw [if_pos hnext, if_pos hnext]
      subst hnext
      refine hrest _ _ hal fun hor => lineNo_ne_of_parseLine hr ?_
      rcases Bool.or_eq_true_iff.1 hor with hb' | hl
      · exact .inr (hb hb')
      · exact .inl (by simpa using hl)
    · rw [if_neg hnext, if_neg hnext]
      exact .some ⟨rfl, hal⟩

/-- The same lines take states that are alike to states that are alike. -/
theorem Alike.parseLines (h : Alike st st') (lines : List (List Byte)) :
    AlikeResults (parseLines env lines st) (Hls.parseLines env lines st') := by
  induction lines generalizing st st' with
  | nil => exact .some ⟨rfl, h⟩
  | cons line lines ih =>
    exact AlikeResults.cons h (b := false) (fun hb => absurd hb Bool.false_ne_true)
      fun s s' hs _ => ih hs

/-- Both layouts take the loop to states that are alike. -/
theorem Relaid.results {b : Bool} {t t' : List Byte} (h : Relaid b t t') :
    ∀ {st st' : ParseState}, Alike st st' → (b = true → st.lineNo ≠ 0) →
      AlikeResults (parseLines env (linesAt t) st) (parseLines env (linesAt t') st') := by
  induction h with
  | last hl => exact fun hal _ => hal.parseLines _
  | @dropEnd b l hl =>
    intro st st' hal hb
    have hend : linesAt (l ++ [0x0a]) = [l, []] := linesAt_line (t := []) hl (.inl rfl)
    rw [hend, linesAt_last hl]
    refine AlikeResults.cons hal hb fun s s' hs _ => ?_
    rw [parseLines_blank]
    exact .some ⟨rfl, hs⟩
  | @lastComment c hc =>
    intro st st' hal hb
    have h0 := hb rfl
    have h0' : st'.lineNo ≠ 0 := mt hal.zero.2 h0
    rw [linesAt_last plain_nil, linesAt_last hc.plain, parseLines_blank,
      parseLines_comment hc h0']
    exact .some ⟨rfl, hal.renumber h0 (Nat.succ_ne_zero _)⟩
  | @line b l e t t' hl he _ ih =>
    intro st st' hal hb
    have hend : linesAt (l ++ 0x0a :: t) = l :: linesAt t := linesAt_line hl (.inl rfl)
    rw [hend, linesAt_line hl he]
    exact AlikeResults.cons hal hb fun s s' hs hbs => ih hs hbs
  | blank he _ ih =>
    intro st st' hal hb
    rw [linesAt_blank he, parseLines_blank]
    exact ih hal hb
  | @ended b l e t' hl he _ ih =>
    intro st st' hal hb
    rw [linesAt_line hl he, linesAt_last hl]
    refine AlikeResults.cons hal hb fun s s' hs hbs => ?_
    have hrest := ih hs hbs
    rwa [linesAt_last plain_nil, parseLines_blank] at hrest
  | @comment c e t t' hc he _ ih =>
    intro st st' hal hb
    have h0 := hb rfl
    have h0' : st'.lineNo ≠ 0 := mt hal.zero.2 h0
    rw [linesAt_line hc.plain he, parseLines_comment hc h0']
    exact ih (hal.renumber h0 (Nat.succ_ne_zero _)) hb

/-! ## The mark of the byte order -/

theorem cutBom_mark {m : List Byte} (hm : m ∈ marks) (t : List Byte) : cutBom (m ++ t) = t := by
  simp only [marks, List.mem_cons, List.not_mem_nil, or_false] at hm
  rcases hm with rfl | rfl | rfl <;> simp [cutBom]

theorem cutBom_of_not_mark {t : List Byte} (h : ∀ m ∈ marks, ¬ m <+: t) : cutBom t = t := by
  have h₁ := h _ (List.mem_cons_self)
  have h₂ := h [0xff, 0xfe] (by decide)
  have h₃ := h [0xfe, 0xff] (by decide)
  simp only [← List.isPrefixOf_iff_prefix] at h₁ h₂ h₃
  rw [cutBom, if_neg h₁, if_neg (not_or.2 ⟨h₂, h₃⟩)]

/-- A mark has no byte of a line end. -/
theorem not_mem_mark {m : List Byte} (hm : m ∈ marks) : 0x0a ∉ m ∧ 0x0d ∉ m ∧ m ≠ [] := by
  revert m
  decide

/-- A mark in front of a line and its end is in front of the line. -/
theorem mark_of_line {m l e t : List Byte} (hm : m ∈ marks) (he : LineEnd e)
    (h : m <+: l ++ (e ++ t)) : m <+: l := by
  obtain ⟨hfeed, hreturn, -⟩ := not_mem_mark hm
  rcases List.prefix_or_prefix_of_prefix h (List.prefix_append l _) with h' | ⟨u, rfl⟩
  · exact h'
  · have hu : u <+: e ++ t := (List.prefix_append_right_inj l).1 h
    cases u with
    | nil => rw [List.append_nil]
    | cons c u =>
      rcases he with rfl | rfl
      · obtain ⟨rfl, -⟩ := List.cons_prefix_cons.1 hu
        exact absurd (List.mem_append_right l List.mem_cons_self) hfeed
      · obtain ⟨rfl, -⟩ := List.cons_prefix_cons.1 hu
        exact absurd (List.mem_append_right l List.mem_cons_self) hreturn

/-- Another layout does not bring a mark to the front. -/
theorem Relaid.not_mark {b : Bool} {t t' : List Byte} (h : Relaid b t t') (hb : b = false)
    (hm : ∀ m ∈ marks, ¬ m <+: t) : ∀ m ∈ marks, ¬ m <+: t' := by
  intro m hmem hpre
  cases h with
  | last hl => exact hm m hmem hpre
  | dropEnd hl => exact hm m hmem (hpre.trans (List.prefix_append _ _))
  | lastComment hc => cases hb
  | line hl he _ => exact hm m hmem ((mark_of_line hmem he hpre).trans (List.prefix_append _ _))
  | @blank _ e _ t' he _ =>
    have hnil := mark_of_line (l := []) hmem he hpre
    exact (not_mem_mark hmem).2.2 (List.prefix_nil.1 hnil)
  | ended hl he _ => exact hm m hmem (mark_of_line hmem he hpre)
  | comment hc he _ => cases hb

/-! ## The result -/

theorem m3uParse_of_results {t t' : List Byte}
    (h : AlikeResults (parseLines env (linesAt (cutBom t)) ParseState.init)
      (parseLines env (linesAt (cutBom t')) ParseState.init)) : m3uParse env t = m3uParse env t' := by
  unfold linesAt at h
  unfold m3uParse
  cases hr : parseLines env ((linesOf (cutBom t)).map cutReturn) ParseState.init with
  | none =>
    cases hr' : parseLines env ((linesOf (cutBom t')).map cutReturn) ParseState.init with
    | none => rfl
    | some r' => rw [hr, hr'] at h; cases h
  | some r =>
    cases hr' : parseLines env ((linesOf (cutBom t')).map cutReturn) ParseState.init with
    | none => rw [hr, hr'] at h; cases h
    | some r' =>
      rw [hr, hr'] at h
      obtain ⟨hflow, hal⟩ : r.1 = r'.1 ∧ Alike r.2 r'.2 := by
        cases h with
        | some hrel => exact hrel
      obtain ⟨heq, -⟩ := alike_iff.1 hal
      have hparser : r'.2.parser = r.2.parser := by rw [heq]; rfl
      have hvariant : r'.2.isVariantPlaylist = r.2.isVariantPlaylist := by rw [heq]; rfl
      simp only [Option.bind_eq_bind, Option.bind_some, hflow, hparser, hvariant]

/-- A playlist parses the same in every layout. -/
theorem m3uParse_relaid (env : ParseEnv) {t t' : List Byte} (h : RelaidText t t') :
    m3uParse env t = m3uParse env t' := by
  apply m3uParse_of_results
  cases h with
  | marked hm h =>
    rw [cutBom_mark hm, cutBom_mark hm]
    exact h.results (Alike.refl _) (by simp)
  | plain hm h =>
    rw [cutBom_of_not_mark hm, cutBom_of_not_mark (h.not_mark rfl hm)]
    exact h.results (Alike.refl _) (by simp)

/-- A playlist of one segment. -/
def shortText : List Byte :=
  bytes "#EXTM3U" ++ 0x0a :: (bytes "#EXTINF:10," ++ 0x0a :: (bytes "a.ts" ++ [0x0a]))

/-- The same with a blank line in front, a comment, another line end and none at the end. -/
def shortText' : List Byte :=
  [0x0d, 0x0a] ++ (bytes "#EXTM3U" ++ ([0x0d, 0x0a] ++ (bytes "# one" ++ ([0x0a] ++
    (bytes "#EXTINF:10," ++ ([0x0a] ++ bytes "a.ts"))))))

instance (l : List Byte) : Decidable (Plain l) :=
  decidable_of_iff (0x0a ∉ l ∧ 0 ∉ l ∧ 0x0d ∉ l) ⟨fun h => ⟨h.1, h.2.1, h.2.2⟩, fun h => ⟨h.feed, h.nul, h.return_⟩⟩

theorem relaid_shortText : RelaidText shortText shortText' := by
  have hcomment : Comment (bytes "# one") := ⟨by decide, by decide, by decide, by decide⟩
  refine .plain (by decide) (.blank (.inr rfl) (.line (by decide) (.inr rfl) ?_))
  exact .comment hcomment (.inl rfl) (.line (by decide) (.inl rfl) (.dropEnd (by decide)))

theorem m3uParse_shortText : m3uParse tenSeconds shortText = m3uParse tenSeconds shortText' :=
  m3uParse_relaid tenSeconds relaid_shortText

/-- A blank line before the mark of the byte order, and a comment behind a blank first line: the
text is not a playlist any more. -/
theorem m3uParse_not_invariant :
    m3uParse tenSeconds ([0xef, 0xbb, 0xbf] ++ bytes "#EXTM3U\n") ≠
        m3uParse tenSeconds (0x0a :: ([0xef, 0xbb, 0xbf] ++ bytes "#EXTM3U\n")) ∧
      m3uParse tenSeconds (bytes "\n#EXTM3U\n") ≠ m3uParse tenSeconds (bytes "\n# one\n#EXTM3U\n") := by
  constructor
  · intro h
    have hext := congrArg (Option.map (Option.map M3UParser.isExtm3u)) h
    revert hext
    decide
  · intro h
    have hext := congrArg (Option.map (Option.map M3UParser.isExtm3u)) h
    revert hext
    decide

end VendorAmlogic.Hls
