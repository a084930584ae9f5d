import Mathlib.Data.List.DropRight
import VendorAmlogic.Hls.Layout

/-!
# Byte ranges

The value of `EXT-X-BYTERANGE` is a length, or a length and an offset behind an
`@`; blanks around a number do not count. Without an offset the range goes on
where the one before in the playlist has ended. `strtoull` also reads a number
with a sign, which is not of this form.
-/

namespace VendorAmlogic.Hls

open VendorAmlogic.Lib

/-! ## What the text says -/

/-- A decimal number, with blanks around it. -/
def numeral (s : List Byte) : Option Nat :=
  if trim s ≠ [] ∧ (trim s).all isdigit then some (decimal (trim s)) else none

/-- A number with a sign in front. -/
def signed (s : List Byte) : Bool :=
  match trim s with
  | [] => false
  | c :: ds => (c == 0x2b || c == 0x2d) && !ds.isEmpty && ds.all isdigit

/-- The text of the length, and that of the offset when there is an `@`. -/
def rangeTexts (line : List Byte) : Option (List Byte × Option (List Byte)) :=
  (strchr 0x3a line).map fun s =>
    match strchr 0x40 s.tail with
    | none => (s.tail, none)
    | some rest => (before s.tail rest, some rest.tail)

/-- A value of the form `n` or `n@o`. -/
def rangeForm (line : List Byte) : Option (Nat × Option Nat) := do
  let (length, offset) ← rangeTexts line
  let length ← numeral length
  match offset with
  | none => some (length, none)
  | some offset => do
    let offset ← numeral offset
    some (length, some offset)

/-- A value that is of the form but for a sign. -/
def signedRange (line : List Byte) : Bool :=
  match rangeTexts line with
  | none => false
  | some (length, offset) =>
    (length :: offset.toList).all (fun s => (numeral s).isSome || signed s) &&
      (length :: offset.toList).any signed

/-- The ranges of the segments, the last one first, the range that pends, and the end of the one
given last. -/
structure Ranged where
  segments : List (Option (Nat × Nat))
  pending : Option (Nat × Nat)
  rangeEnd : Nat

/-- What a range tag adds. -/
def Ranged.tag (r : Ranged) (line : List Byte) : Ranged :=
  match rangeForm line with
  | none => r
  | some (length, offset) =>
    { r with
      pending := some (length, offset.getD r.rangeEnd)
      rangeEnd := offset.getD r.rangeEnd + length }

/-- What a line adds. -/
def Ranged.line (r : Ranged) (line : List Byte) : Ranged :=
  if line = [] then r
  else if line.head? = some 0x23 then
    if tagOf line = some .byterange then r.tag line else r
  else { r with segments := r.pending :: r.segments, pending := none }

/-- The ranges of the segments of a text, in order. -/
def ranged (text : List Byte) : List (Option (Nat × Nat)) :=
  ((linesAt (cutBom text)).foldl Ranged.line ⟨[], none, 0⟩).segments.reverse

/-- No range ends beyond 63 bits. -/
def SumsFit : Ranged → List (List Byte) → Prop
  | _, [] => True
  | r, line :: lines => (r.line line).rangeEnd < 2 ^ 63 ∧ SumsFit (r.line line) lines

/-! ## Numbers -/

section
variable {s line : List Byte}

theorem dropWhile_trim (s : List Byte) : (trim s).dropWhile isspace = trim s := by
  have hprefix : trim s <+: s.dropWhile isspace := List.rdropWhile_prefix isspace _
  cases htrim : trim s with
  | nil => rfl
  | cons c ds =>
    obtain ⟨rest, heq⟩ := htrim ▸ hprefix
    have hhead := List.head?_dropWhile_not isspace s
    rw [← heq, List.cons_append, List.head?_cons] at hhead
    exact List.dropWhile_cons_of_neg (by simpa using hhead)

theorem isdigit_not_sign {c : Byte} (h : isdigit c = true) : c ≠ 0x2d ∧ c ≠ 0x2b := by
  constructor
  · rintro rfl
    cases h
  · rintro rfl
    cases h

/-- Digits are read to their end. -/
theorem takeWhile_digits {ds : List Byte} (h : ds.all isdigit = true) :
    ds.takeWhile isdigit = ds ∧ ds.dropWhile isdigit = [] := by
  have hall : ∀ d ∈ ds, isdigit d = true := List.all_eq_true.mp h
  exact ⟨List.takeWhile_eq_self_iff.mpr hall, List.dropWhile_eq_nil_iff.mpr hall⟩

theorem readNumber_digits {ds : List Byte} (hspace : ds.dropWhile isspace = ds) (hne : ds ≠ [])
    (hall : ds.all isdigit = true) : readNumber ds = some (false, decimal ds, []) := by
  obtain ⟨htake, hdrop⟩ := takeWhile_digits hall
  obtain ⟨c, cs, rfl⟩ := List.exists_cons_of_ne_nil hne
  obtain ⟨hminus, hplus⟩ := isdigit_not_sign (List.all_eq_true.mp hall c List.mem_cons_self)
  have hm : ¬ ((c :: cs).head? = some 0x2d) := fun h => hminus (Option.some.inj h)
  have hp : ¬ ((c :: cs).head? = some 0x2b) := fun h => hplus (Option.some.inj h)
  unfold readNumber
  simp only [hspace, hm, hp, or_self, if_false, htake, hdrop, if_neg hne, decide_false]

theorem wholeNumber_of_numeral {n : Nat} (h : numeral s = some n) (hn : n < 2 ^ 64) :
    wholeNumber s = some n := by
  unfold numeral at h
  split at h
  · rename_i hdigits
    cases h
    unfold wholeNumber strtoull
    rw [readNumber_digits (dropWhile_trim s) hdigits.1 hdigits.2, Option.map_some]
    dsimp only
    rw [if_neg (not_le.mpr hn), if_neg Bool.false_ne_true]
  · cases h

/-- What is read as a whole number: one of the form, or one with a sign. -/
theorem numeral_or_signed (h : (wholeNumber s).isSome) : (numeral s).isSome ∨ signed s = true := by
  obtain ⟨v, hv⟩ := Option.isSome_iff_exists.mp h
  unfold wholeNumber at hv
  split at hv
  · rename_i v' hread
    obtain ⟨⟨neg, n, rest⟩, hread, heq⟩ := Option.map_eq_some_iff.mp hread
    obtain rfl : rest = [] := (Prod.mk.inj heq).2
    unfold readNumber at hread
    rw [dropWhile_trim] at hread
    dsimp only at hread
    generalize hds : (if (trim s).head? = some 0x2d ∨ (trim s).head? = some 0x2b then (trim s).tail
      else trim s) = ds at hread
    split at hread
    · cases hread
    · rename_i hne
      obtain ⟨-, -, hdrop⟩ := Prod.mk.inj (Option.some.inj hread) |>.imp id Prod.mk.inj
      have hall : ds.all isdigit = true :=
        List.all_eq_true.mpr (List.dropWhile_eq_nil_iff.mp hdrop)
      have hne : ds ≠ [] := by
        rintro rfl
        exact hne rfl
      split at hds
      · rename_i hsign
        refine .inr ?_
        cases htrim : trim s with
        | nil =>
          rw [htrim] at hds
          exact absurd hds.symm hne
        | cons c cs =>
          rw [htrim] at hds hsign
          subst hds
          have hc : c = 0x2b ∨ c = 0x2d :=
            hsign.symm.imp (Option.some.inj ·) (Option.some.inj ·)
          have hcs : cs.isEmpty = false := List.isEmpty_eq_false_iff.mpr hne
          unfold signed
          rw [htrim]
          simp only [Bool.and_eq_true, Bool.or_eq_true, beq_iff_eq, hcs, Bool.not_false, and_true]
          exact ⟨hc, hall⟩
      · subst hds
        refine .inl ?_
        unfold numeral
        rw [if_pos ⟨hne, hall⟩]
        rfl
  · cases hv

/-- The offset that is read, or the one so far. -/
def offsetOr (curOffset : Nat) : Option (List Byte) → Option Nat
  | none => some curOffset
  | some s => wholeNumber s

/-- The range that a value gives, by its texts. -/
theorem parseByteRange_eq (line : List Byte) (curOffset : Nat) :
    parseByteRange line curOffset = (rangeTexts line).bind fun r =>
      (wholeNumber r.1).bind fun length =>
        (offsetOr curOffset r.2).map fun offset => (length, offset) := by
  unfold parseByteRange rangeTexts
  cases strchr 0x3a line with
  | none => rfl
  | some s =>
    simp only [Option.bind_eq_bind, Option.bind_some, Option.map_some]
    cases strchr 0x40 s.tail with
    | none => rfl
    | some rest =>
      dsimp only [offsetOr]
      cases wholeNumber (before s.tail rest) with
      | none => rfl
      | some length =>
        simp only [Option.bind_some]
        cases wholeNumber rest.tail with
        | none => rfl
        | some offset => rfl

/-- A value of the form. -/
theorem parseByteRange_of_form {length : Nat} {offset : Option Nat} {curOffset : Nat}
    (h : rangeForm line = some (length, offset)) (hfit : offset.getD curOffset + length < 2 ^ 63) :
    parseByteRange line curOffset = some (length, offset.getD curOffset) := by
  obtain ⟨⟨l, o⟩, htexts, h⟩ := Option.bind_eq_some_iff.mp h
  obtain ⟨length', hl, h⟩ := Option.bind_eq_some_iff.mp h
  rw [parseByteRange_eq, htexts, Option.bind_some]
  dsimp only
  cases o with
  | none =>
    cases h
    rw [wholeNumber_of_numeral hl (by omega), Option.bind_some]
    rfl
  | some o =>
    obtain ⟨offset', ho, h⟩ := Option.bind_eq_some_iff.mp h
    cases h
    rw [Option.getD_some] at hfit ⊢
    rw [wholeNumber_of_numeral hl (by omega), Option.bind_some,
      offsetOr, wholeNumber_of_numeral ho (by omega), Option.map_some]

/-- A value that is read is of the form, but for a sign. -/
theorem form_or_signed {curOffset : Nat} (h : (parseByteRange line curOffset).isSome) :
    (rangeForm line).isSome ∨ signedRange line = true := by
  rw [parseByteRange_eq] at h
  unfold rangeForm signedRange
  cases htexts : rangeTexts line with
  | none =>
    rw [htexts] at h
    cases h
  | some r =>
    obtain ⟨l, o⟩ := r
    rw [htexts, Option.bind_some] at h
    dsimp only at h ⊢
    obtain ⟨_, hr⟩ := Option.isSome_iff_exists.mp h
    obtain ⟨length, hl, hr⟩ := Option.bind_eq_some_iff.mp hr
    obtain ⟨offset, ho, -⟩ := Option.map_eq_some_iff.mp hr
    have hlength := numeral_or_signed (Option.isSome_iff_exists.mpr ⟨length, hl⟩)
    cases o with
    | none =>
      rcases hlength with hn | hs
      · obtain ⟨n, hn⟩ := Option.isSome_iff_exists.mp hn
        exact .inl (by simp [hn])
      · exact .inr (by simp [hs])
    | some o =>
      have hoffset := numeral_or_signed (Option.isSome_iff_exists.mpr ⟨offset, ho⟩)
      by_cases hsigned : signed l = true ∨ signed o = true
      · exact .inr (by simp [hlength, hoffset, hsigned])
      · obtain ⟨hsl, hso⟩ := not_or.mp hsigned
        obtain ⟨n, hn⟩ := Option.isSome_iff_exists.mp (hlength.resolve_right hsl)
        obtain ⟨m, hm⟩ := Option.isSome_iff_exists.mp (hoffset.resolve_right hso)
        exact .inl (by simp [hn, hm])

/-- A value that is not of the form, nor so but for a sign, is not read. -/
theorem parseByteRange_malformed {curOffset : Nat} (hsigned : signedRange line = false)
    (hform : rangeForm line = none) : parseByteRange line curOffset = none := by
  by_contra hsome
  rcases form_or_signed (Option.isSome_iff_ne_none.mpr hsome) with hf | hs
  · rw [hform] at hf
    cases hf
  · rw [hsigned] at hs
    cases hs

end

/-! ## The parser -/

/-- What was told of the ranges is what the forms say. -/
structure SameRanges (r : Ranged) (t : Told) : Prop where
  segments : t.segments.map (·.range) = r.segments
  range : t.range = r.pending
  rangeEnd : t.rangeEnd = r.rangeEnd

section
variable {env : ParseEnv} {r : Ranged} {t : Told} {line : List Byte}

theorem SameRanges.tag (h : SameRanges r t) (hsigned : signedRange line = false)
    (hfit : (r.tag line).rangeEnd < 2 ^ 63) :
    SameRanges (r.tag line) (t.tag env line .byterange) := by
  unfold Ranged.tag at hfit ⊢
  simp only [Told.tag]
  cases hform : rangeForm line with
  | none =>
    rw [parseByteRange_malformed hsigned hform]
    exact h
  | some form =>
    obtain ⟨length, offset⟩ := form
    rw [hform] at hfit
    rw [h.rangeEnd, parseByteRange_of_form hform hfit]
    refine ⟨h.segments, rfl, ?_⟩
    dsimp only at hfit ⊢
    rw [← Nat.cast_add, u64_natCast (by omega)]

/-- The other tags concern no ranges. -/
theorem SameRanges.other {tag : Tag} (h : SameRanges r t) (hne : tag ≠ .byterange) :
    SameRanges r (t.tag env line tag) := by
  cases tag
  case byterange => exact absurd rfl hne
  case mediaSequence =>
    simp only [Told.tag]
    split
    · exact ⟨h.segments, h.range, h.rangeEnd⟩
    · exact h
  case key =>
    simp only [Told.tag]
    split
    · exact ⟨h.segments, h.range, h.rangeEnd⟩
    · exact h
  all_goals exact h

theorem SameRanges.next (h : SameRanges r t)
    (hsigned : tagOf line = some .byterange → signedRange line = false)
    (hfit : (r.line line).rangeEnd < 2 ^ 63) : SameRanges (r.line line) (t.line env line) := by
  unfold Ranged.line at hfit ⊢
  unfold Told.line
  by_cases hline : line = []
  · rw [if_pos hline, if_pos hline]
    exact h
  · rw [if_neg hline] at hfit ⊢
    rw [if_neg hline]
    by_cases hhead : line.head? = some 0x23
    · rw [if_pos hhead] at hfit ⊢
      rw [if_pos hhead]
      cases htag : tagOf line with
      | none =>
        rw [if_neg nofun]
        exact h
      | some tag =>
        by_cases hrange : tag = .byterange
        · subst hrange
          rw [htag, if_pos rfl] at hfit
          rw [if_pos rfl]
          exact h.tag (hsigned htag) hfit
        · rw [if_neg fun heq => hrange (Option.some.inj heq)]
          exact h.other hrange
    · rw [if_neg hhead] at hfit ⊢
      rw [if_neg hhead]
      exact ⟨by rw [List.map_cons, h.range, h.segments], rfl, h.rangeEnd⟩

theorem SameRanges.lines {lines : List (List Byte)} (h : SameRanges r t)
    (hsigned : ∀ line ∈ lines, tagOf line = some .byterange → signedRange line = false)
    (hfit : SumsFit r lines) :
    SameRanges (lines.foldl Ranged.line r) (lines.foldl (Told.line env) t) := by
  induction lines generalizing r t with
  | nil => exact h
  | cons line lines ih =>
    exact ih (h.next (hsigned line List.mem_cons_self) hfit.1)
      (fun l hl => hsigned l (List.mem_cons_of_mem _ hl)) hfit.2

/-- Every range ends within 63 bits. -/
structure Ranged.Small (r : Ranged) : Prop where
  pending : ∀ x ∈ r.pending, x.2 + x.1 < 2 ^ 63
  segments : ∀ o ∈ r.segments, ∀ x ∈ o, x.2 + x.1 < 2 ^ 63

theorem Ranged.Small.next (h : r.Small) (hfit : (r.line line).rangeEnd < 2 ^ 63) :
    (r.line line).Small := by
  unfold Ranged.line at hfit ⊢
  by_cases hline : line = []
  · rw [if_pos hline]
    exact h
  · rw [if_neg hline] at hfit ⊢
    by_cases hhead : line.head? = some 0x23
    · rw [if_pos hhead] at hfit ⊢
      by_cases htag : tagOf line = some .byterange
      · rw [if_pos htag] at hfit ⊢
        unfold Ranged.tag at hfit ⊢
        cases hform : rangeForm line with
        | none => exact h
        | some form =>
          rw [hform] at hfit
          refine ⟨fun x hx => ?_, h.segments⟩
          obtain rfl := Option.mem_some_iff.mp hx
          exact hfit
      · rw [if_neg htag]
        exact h
    · rw [if_neg hhead]
      exact ⟨fun x hx => absurd hx (Option.not_mem_none x),
        List.forall_mem_cons.mpr ⟨h.pending, h.segments⟩⟩

theorem SumsFit.small {lines : List (List Byte)} (hfit : SumsFit r lines) (h : r.Small) :
    (lines.foldl Ranged.line r).Small := by
  induction lines generalizing r with
  | nil => exact h
  | cons line lines ih => exact ih hfit.2 (h.next hfit.1)

end

/-- The bytes that a node has: those of a range, or the whole file. -/
def M3uBaseNode.HasRange (n : M3uBaseNode) : Option (Nat × Nat) → Prop
  | none => n.readOffset = 0 ∧ n.fileSize ≤ 0
  | some (length, offset) => n.readOffset = offset ∧ n.fileSize = length

theorem hasRange_of_kept {n : M3uBaseNode} {range : Option (Nat × Nat)}
    (h : RangeKept range n.readOffset n.fileSize) (hsmall : ∀ x ∈ range, x.2 + x.1 < 2 ^ 63) :
    n.HasRange range := by
  cases range with
  | none => exact h
  | some x =>
    obtain ⟨length, offset⟩ := x
    have hlt : offset + length < 2 ^ 63 := hsmall (length, offset) rfl
    obtain ⟨ho, hl⟩ := h
    rw [i64_eq_self (by omega) (by omega)] at ho hl
    exact ⟨ho, hl⟩

section
variable {env : ParseEnv} {text line : List Byte} {p : M3UParser} {st : ParseState}

/-- The nodes have the ranges of the text. -/
theorem nodes_ranged (h : m3uParse env text = some (some p))
    (hfit : SumsFit ⟨[], none, 0⟩ (linesAt (cutBom text)))
    (hsigned : ∀ line ∈ linesAt (cutBom text), tagOf line = some .byterange →
      signedRange line = false) {n : M3uBaseNode} (hn : n ∈ p.head) :
    ∃ i : Nat, n.index = i ∧ ∃ range, (ranged text)[i]? = some range ∧ n.HasRange range := by
  have htells := m3uParse_tells h
  obtain ⟨segs, hsegs, hnodes⟩ := htells.nodes
  obtain ⟨i, hindex, -, seg, hseg, hkeeps⟩ := hnodes.mem hn
  have hsame : SameRanges ((linesAt (cutBom text)).foldl Ranged.line ⟨[], none, 0⟩)
      (told env text) := SameRanges.lines ⟨rfl, rfl, rfl⟩ hsigned hfit
  have hsmall := hfit.small ⟨fun x hx => absurd hx (Option.not_mem_none x), by simp⟩
  have hget : (ranged text)[i]? = some seg.range := by
    have hseg := Told.segment_of_suffix hsegs hseg
    unfold ranged
    rw [← hsame.segments, ← List.map_reverse, List.getElem?_map, ← Told.segment, hseg,
      Option.map_some]
  refine ⟨i, hindex, seg.range, hget, hasRange_of_kept hkeeps.range ?_⟩
  exact hsmall.segments _ (List.mem_reverse.mp (List.mem_of_getElem? hget))

/-- A value that is not of the form changes nothing. -/
theorem parseTag_malformed (hsigned : signedRange line = false) (hform : rangeForm line = none)
    (hmedia : st.isVariantPlaylist = false) :
    parseTag env st line .byterange = some (.next, st) := by
  simp only [parseTag, parseByteRange_malformed hsigned hform, ParseState.media, hmedia,
    Bool.false_eq_true, if_false]

/-- The I frame that pends gets the end of its range, and the next segment keeps its own. -/
theorem parseTag_iframeRange {length : Nat} {offset : Option Nat}
    (hform : rangeForm line = some (length, offset)) (hmedia : st.isVariantPlaylist = false)
    (hiframe : st.isIframeOnly = true)
    (hfit : offset.getD st.segmentRangeOffset + length < 2 ^ 63) :
    parseTag env st line .byterange = some (.next, { st with
      segmentRangeOffset := offset.getD st.segmentRangeOffset + length
      tmpIframeNode := { st.tmpIframeNode with
        readOffset := (offset.getD st.segmentRangeOffset : Nat)
        fileSize := (offset.getD st.segmentRangeOffset + length : Nat) } }) := by
  have hread := parseByteRange_of_form hform hfit
  generalize offset.getD st.segmentRangeOffset = o at hread hfit ⊢
  have hend : u64 ((o : Int) + length) = o + length := by
    rw [← Nat.cast_add, u64_natCast (by omega)]
  have hsize : i64 ((length : Int) + o) = (o + length : Nat) := by
    rw [i64_eq_self (by omega) (by omega)]
    omega
  have hoffset : i64 (o : Int) = o := i64_eq_self (by omega) (by omega)
  simp only [parseTag, hread, ParseState.media, hmedia, Bool.false_eq_true, if_false, hiframe, if_true,
    hend, hsize, hoffset]

end

/-- **Byte ranges.** Where no number of a range has a sign, the node of a segment has the range of
its tag, which goes on from the one before when it has no offset, or the whole file, and values of
another form are passed over. For an I frame the size is the end of the range. -/
theorem byteRanges_kept (env : ParseEnv) (text : List Byte) (p : M3UParser)
    (h : m3uParse env text = some (some p))
    (hfit : SumsFit ⟨[], none, 0⟩ (linesAt (cutBom text)))
    (hsigned : ∀ line ∈ linesAt (cutBom text), tagOf line = some .byterange →
      signedRange line = false) :
    (∀ n ∈ p.head, ∃ i : Nat, n.index = i ∧
      ∃ range, (ranged text)[i]? = some range ∧ n.HasRange range) ∧
    (∀ line ∈ linesAt (cutBom text), tagOf line = some .byterange → rangeForm line = none →
      ∀ st : ParseState, st.isVariantPlaylist = false →
        parseTag env st line .byterange = some (.next, st)) ∧
    (∀ line length offset, rangeForm line = some (length, offset) →
      ∀ st : ParseState, st.isVariantPlaylist = false → st.isIframeOnly = true →
        offset.getD st.segmentRangeOffset + length < 2 ^ 63 →
        parseTag env st line .byterange = some (.next, { st with
          segmentRangeOffset := offset.getD st.segmentRangeOffset + length
          tmpIframeNode := { st.tmpIframeNode with
            readOffset := (offset.getD st.segmentRangeOffset : Nat)
            fileSize := (offset.getD st.segmentRangeOffset + length : Nat) } })) := by
  refine ⟨fun n hn => nodes_ranged h hfit hsigned hn, ?_, ?_⟩
  · intro line hline htag hform st hmedia
    exact parseTag_malformed (hsigned line hline htag) hform hmedia
  · intro line length offset hform st hmedia hiframe hsum
    exact parseTag_iframeRange hform hmedia hiframe hsum

/-- A range, a value that is none, a range that goes on, and a segment without one. -/
def rangesText : List Byte :=
  bytes "#EXTM3U\n#EXT-X-BYTERANGE:5@3\na.ts\n#EXT-X-BYTERANGE:x\n#EXT-X-BYTERANGE: 4\na.ts\nb.ts\n"

instance instDecidableSumsFit : ∀ (r : Ranged) (lines : List (List Byte)), Decidable (SumsFit r lines)
  | _, [] => isTrue trivial
  | r, line :: lines =>
    have : Decidable (SumsFit (r.line line) lines) := instDecidableSumsFit (r.line line) lines
    inferInstanceAs (Decidable ((r.line line).rangeEnd < 2 ^ 63 ∧ SumsFit (r.line line) lines))

theorem byteRanges_rangesText : ranged rangesText = [some (5, 3), some (4, 8), none] ∧
    ∃ p, m3uParse tenSeconds rangesText = some (some p) ∧ p.head.length = 3 ∧
      ∀ n ∈ p.head, ∃ i : Nat, n.index = i ∧
        ∃ range, (ranged rangesText)[i]? = some range ∧ n.HasRange range := by
  have hparse : ((m3uParse tenSeconds rangesText).bind id).map (·.head.length) = some 3 := by decide
  obtain ⟨p, hp, hlen⟩ := Option.map_eq_some_iff.mp hparse
  obtain ⟨o, ho, rfl⟩ := Option.bind_eq_some_iff.mp hp
  exact ⟨by decide, p, ho, hlen,
    (byteRanges_kept tenSeconds rangesText p ho (by decide) (by decide)).1⟩

/-- The range of an I frame. -/
def iframeText : List Byte :=
  bytes "#EXTM3U\n#EXT-X-I-FRAMES-ONLY\n#EXTINF:10,\n#EXT-X-BYTERANGE:5@3\na.ts\n"

/-- The node of an I frame has the end of its range as its size, and not the length. -/
theorem iframe_rangeEnd : ∃ p node, m3uParse tenSeconds iframeText = some (some p) ∧
    p.isVariantPlaylist = false ∧ p.iframeNodeList = [node] ∧ ranged iframeText = [some (5, 3)] ∧
    node.readOffset = 3 ∧ node.fileSize = 8 ∧ node.fileSize ≠ 5 := by
  have hparse : ((m3uParse tenSeconds iframeText).bind id).map
      (fun p => (p.isVariantPlaylist, p.iframeNodeList.map fun n => (n.readOffset, n.fileSize))) =
        some (false, [(3, 8)]) := by decide
  obtain ⟨p, hp, heq⟩ := Option.map_eq_some_iff.mp hparse
  obtain ⟨o, ho, rfl⟩ := Option.bind_eq_some_iff.mp hp
  obtain ⟨hvariant, hnodes⟩ := Prod.mk.inj heq
  obtain ⟨node, rest, hlist, hnode, hrest⟩ := List.map_eq_cons_iff.mp hnodes
  obtain rfl := List.map_eq_nil_iff.mp hrest
  obtain ⟨hoffset, hsize⟩ := Prod.mk.inj hnode
  exact ⟨p, node, ho, hvariant, hlist, by decide, hoffset, hsize, by rw [hsize]; decide⟩

end VendorAmlogic.Hls
