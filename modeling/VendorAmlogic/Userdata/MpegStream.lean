import VendorAmlogic.Lib.Stdio
import VendorAmlogic.Lib.Run
import VendorAmlogic.Lib.Incremental

/-!
# Captions from the decoder, MPEG-2

`aml_extract_package` of `am_userdata/aml/aml.c` and the part of
`aml_userdata_thread` that calls it. A package is a header of 16 bytes and the
data up to the next header; it is taken when the next header is in sight. Data
that is not a package yet stays in the buffer, and the next read goes behind it.

The extractor goes through the data in words of four bytes. The bytes of a word
are copied in reversed order, those of two words together unless a header might
start at the second one. The processor is little-endian.
-/

namespace VendorAmlogic.Userdata.Mpeg

open VendorAmlogic.Lib

/-- `sizeof(buf)`. -/
def bufSize : Nat := 5 * 1024

/-- `aml_ud_header_t`. -/
structure UdHeader where
  pictureStructure : Nat
  temporalReference : Nat
  pictureCodingType : Nat
  reserved : Nat
  index : Nat
  offset : Nat
  ccDataStart : List Byte
  atscId : Nat
  deriving DecidableEq

/-- The header at `p`. -/
def udHeader (p : List Byte) : UdHeader :=
  let w := ofLe (p.take 4)
  let v := ofLe ((p.drop 4).take 4)
  { pictureStructure := w % 2 ^ 16
    temporalReference := w / 2 ^ 16 % 2 ^ 10
    pictureCodingType := w / 2 ^ 26 % 2 ^ 3
    reserved := w / 2 ^ 29
    index := v % 2 ^ 16
    offset := v / 2 ^ 16
    ccDataStart := (p.drop 8).take 4
    atscId := ofLe ((p.drop 12).take 4) }

/-- `uh->atsc_id == 0x47413934`. -/
def hasId (p : List Byte) : Bool := (udHeader p).atscId == 0x47413934

/-- A caption header. -/
def isCaption (p : List Byte) : Bool := hasId p && (udHeader p).ccDataStart.getD 3 0 == 0x3

/-- `COPY_4_BYTES`. -/
def copy4 (p : List Byte) : List Byte := (p.take 4).reverse

/-- The state of the loop of `aml_extract_package`; `cc` are the bytes that were copied. -/
structure Scan where
  count : Nat
  header : UdHeader
  cc : List Byte
  p : List Byte

/-- The loop of `aml_extract_package`. -/
def extractLoop (s : Scan) : Scan :=
  if s.p.length < 16 then s
  else if isCaption s.p then
    if s.count = 0 then
      extractLoop
        ⟨1, udHeader s.p, s.cc ++ copy4 (s.p.drop 12) ++ copy4 (s.p.drop 8), s.p.drop 16⟩
    else { s with count := s.count + 1 }
  else if s.count = 1 then
    if 20 ≤ s.p.length ∧ ! hasId (s.p.drop 4) then
      extractLoop { s with cc := s.cc ++ copy4 (s.p.drop 4) ++ copy4 s.p, p := s.p.drop 8 }
    else extractLoop { s with cc := s.cc ++ copy4 s.p, p := s.p.drop 4 }
  else extractLoop { s with p := s.p.drop 4 }
termination_by s.p.length
decreasing_by all_goals (rw [List.length_drop]; omega)

/-- What `aml_extract_package` gives back: the data that is left, the copied bytes, whose number is
that of an 8-bit counter, and the header. -/
structure Extracted where
  left : List Byte
  cc : List Byte
  header : UdHeader

/-- `aml_extract_package`; `h` is what was in `*pkg_header`. -/
def extractPackage (h : UdHeader) (d : List Byte) : Extracted :=
  if d.length < 12 then ⟨d, [], h⟩
  else
    let r := extractLoop ⟨0, h, [], d⟩
    if r.count < 2 then ⟨d, [], r.header⟩
    else ⟨r.p, r.cc.drop (256 * (r.cc.length / 256)), r.header⟩

/-- A package as the thread passes it on. -/
structure Package where
  header : UdHeader
  cc : List Byte
  deriving DecidableEq

/-! ## One package -/

section
variable {p x : List Byte}

theorem udHeader_append (h : 16 ≤ p.length) (x : List Byte) : udHeader (p ++ x) = udHeader p := by
  have hword : ∀ i, i + 4 ≤ p.length → ((p ++ x).drop i).take 4 = (p.drop i).take 4 := by
    intro i hi
    rw [List.drop_append_of_le_length (by omega), List.take_append_of_le_length]
    rw [List.length_drop]
    omega
  simp only [udHeader, hword 4 (by omega), hword 8 (by omega), hword 12 (by omega),
    List.take_append_of_le_length (show 4 ≤ p.length by omega)]

theorem hasId_append (h : 16 ≤ p.length) (x : List Byte) : hasId (p ++ x) = hasId p := by
  rw [hasId, udHeader_append h, hasId]

theorem isCaption_append (h : 16 ≤ p.length) (x : List Byte) : isCaption (p ++ x) = isCaption p := by
  rw [isCaption, hasId_append h, udHeader_append h, isCaption]

theorem copy4_append (h : 4 ≤ p.length) (x : List Byte) : copy4 (p ++ x) = copy4 p := by
  rw [copy4, List.take_append_of_le_length h, copy4]

theorem hasId_of_isCaption (h : isCaption p = true) : hasId p = true := (Bool.and_eq_true_iff.mp h).1

end

/-- What the loop leaves: with two headers found it stands at the second one. -/
theorem extractLoop_found (s : Scan) (hs : s.count ≤ 1) (h : 2 ≤ (extractLoop s).count) :
    16 ≤ (extractLoop s).p.length ∧ (extractLoop s).p.length ≤ s.p.length ∧
      (s.count = 0 → (extractLoop s).p.length < s.p.length) := by
  fun_induction extractLoop s with
  | case1 => omega
  | case2 s hlen _ _ ih =>
    obtain ⟨h1, h2, -⟩ := ih (Nat.le_refl 1) h
    rw [List.length_drop] at h2
    exact ⟨h1, by omega, fun _ => by omega⟩
  | case3 s hlen _ hc => exact ⟨not_lt.mp hlen, Nat.le_refl _, fun h0 => absurd h0 hc⟩
  | case4 s hlen _ hc _ ih =>
    obtain ⟨h1, h2, -⟩ := ih hs h
    rw [List.length_drop] at h2
    exact ⟨h1, by omega, fun h0 => by omega⟩
  | case5 s hlen _ hc _ ih =>
    obtain ⟨h1, h2, -⟩ := ih hs h
    rw [List.length_drop] at h2
    exact ⟨h1, by omega, fun h0 => by omega⟩
  | case6 s hlen _ hc ih =>
    obtain ⟨h1, h2, -⟩ := ih hs h
    rw [List.length_drop] at h2
    exact ⟨h1, by omega, fun h0 => by omega⟩

/-- **More data behind does not change what was found.** -/
theorem extractLoop_append (s : Scan) (x : List Byte) (hs : s.count ≤ 1)
    (h : 2 ≤ (extractLoop s).count) :
    extractLoop { s with p := s.p ++ x } = { extractLoop s with p := (extractLoop s).p ++ x } := by
  have hdrop : ∀ {p : List Byte} {n : Nat}, n ≤ p.length → (p ++ x).drop n = p.drop n ++ x := fun hn =>
    List.drop_append_of_le_length hn
  fun_induction extractLoop s with
  | case1 => omega
  | case2 s hlen hcap hc ih =>
    rw [extractLoop]
    dsimp only
    rw [List.length_append, if_neg (by omega), isCaption_append (by omega), if_pos hcap, if_pos hc,
      udHeader_append (by omega), hdrop (by omega), hdrop (by omega), hdrop (by omega),
      copy4_append (by rw [List.length_drop]; omega), copy4_append (by rw [List.length_drop]; omega)]
    exact ih (Nat.le_refl 1) h
  | case3 s hlen hcap hc =>
    rw [extractLoop]
    dsimp only
    rw [List.length_append, if_neg (by omega), isCaption_append (by omega), if_pos hcap, if_neg hc]
  | case4 s hlen hcap hc hid ih =>
    have h16 : 16 ≤ (s.p.drop 4).length := by
      rw [List.length_drop]
      omega
    rw [extractLoop]
    dsimp only
    rw [List.length_append, if_neg (by omega), isCaption_append (by omega), if_neg hcap, if_pos hc,
      hdrop (by omega), hasId_append h16, if_pos ⟨by omega, hid.2⟩, copy4_append (by omega),
      copy4_append (by omega), hdrop (by omega)]
    exact ih hs h
  | case5 s hlen hcap hc hid ih =>
    by_cases h20 : 20 ≤ s.p.length
    · have h16 : 16 ≤ (s.p.drop 4).length := by
        rw [List.length_drop]
        omega
      rw [extractLoop]
      dsimp only
      rw [List.length_append, if_neg (by omega), isCaption_append (by omega), if_neg hcap, if_pos hc,
        hdrop (by omega), hasId_append h16, if_neg fun h' => hid ⟨h20, h'.2⟩, copy4_append (by omega)]
      exact ih hs h
    · -- less than a header is left: nothing more is found
      rw [extractLoop, if_pos (by rw [List.length_drop]; omega)] at h
      exact absurd h (by dsimp only; omega)
  | case6 s hlen hcap hc ih =>
    rw [extractLoop]
    dsimp only
    rw [List.length_append, if_neg (by omega), isCaption_append (by omega), if_neg hcap, if_neg hc,
      hdrop (by omega)]
    exact ih hs h

/-- What was in `*pkg_header` is overwritten by the first header. -/
theorem extractLoop_header (s : Scan) (h : UdHeader) (hs : s.count = 0) :
    extractLoop { s with header := h } = extractLoop s ∨
      ((extractLoop s).count = 0 ∧ (extractLoop { s with header := h }).count = 0) := by
  fun_induction extractLoop s with
  | case1 s hlen =>
    rw [extractLoop, if_pos hlen]
    exact .inr ⟨hs, hs⟩
  | case2 s hlen hcap hc ih =>
    rw [extractLoop, if_neg hlen, if_pos hcap, if_pos hc]
    exact .inl rfl
  | case3 s hlen hcap hc => exact absurd hs hc
  | case4 s hlen hcap hc => omega
  | case5 s hlen hcap hc => omega
  | case6 s hlen hcap hc ih =>
    rw [extractLoop, if_neg hlen, if_neg hcap, if_neg hc]
    exact ih hs

/-! ## The thread -/

theorem extractPackage_lt {h : UdHeader} {d : List Byte} (hcc : (extractPackage h d).cc ≠ []) :
    (extractPackage h d).left.length < d.length := by
  unfold extractPackage at hcc ⊢
  split at hcc
  · exact absurd rfl hcc
  next h12 =>
    rw [if_neg h12]
    dsimp only at hcc ⊢
    split at hcc
    · exact absurd rfl hcc
    next h2 =>
      rw [if_neg h2]
      exact (extractLoop_found _ (Nat.zero_le 1) (not_lt.mp h2)).2.2 rfl

/-- The loop around `aml_extract_package`: the packages, what is left and the last header. -/
def packages (h : UdHeader) (d : List Byte) : List Package × List Byte × UdHeader :=
  let r := extractPackage h d
  let out := if r.cc ≠ [] then [Package.mk r.header r.cc] else []
  if _hr : r.cc ≠ [] ∧ r.left ≠ [] then
    let q := packages r.header r.left
    (out ++ q.1, q.2)
  else (out, r.left, r.header)
termination_by d.length
decreasing_by exact extractPackage_lt _hr.1

/-- What the thread keeps from read to read: the front of its buffer and the last header. -/
structure Thread where
  left : List Byte
  pheader : UdHeader

/-- The thread when it starts. -/
def threadStart : Thread := ⟨[], udHeader []⟩

/-- A read. No read is longer than the free part of the buffer. -/
def readStep (t : Thread) (read : List Byte) : Thread × List Package :=
  if read = [] ∨ bufSize < t.left.length + read.length then (t, [])
  else
    let r := packages t.pheader (t.left ++ read)
    (⟨r.2.1, r.2.2⟩, r.1)

/-- The read fits into the free part of the buffer. -/
def Fits (t : Thread) (read : List Byte) : Prop := t.left.length + read.length ≤ bufSize

/-! ## Packages as items -/

/-- The package at the front of the data. Where the 8-bit counter comes back to 0 the thread takes
none and does not look for another one. -/
def takePackage (d : List Byte) : Taken Package Byte :=
  let r := extractLoop ⟨0, udHeader [], [], d⟩
  if r.count < 2 then .more d
  else if r.cc.length % 256 = 0 then .stuck
  else .item ⟨r.header, r.cc.drop (256 * (r.cc.length / 256))⟩ r.p

section
variable {d k x : List Byte} {e : Package}

theorem takePackage_more (h : takePackage d = .more k) :
    k = d ∧ (extractLoop ⟨0, udHeader [], [], d⟩).count < 2 := by
  unfold takePackage at h
  dsimp only at h
  split at h
  next hc => exact ⟨(Taken.more.inj h).symm, hc⟩
  · split at h <;> exact nomatch h

theorem takePackage_append (h : 2 ≤ (extractLoop ⟨0, udHeader [], [], d⟩).count) (x : List Byte) :
    takePackage (d ++ x) = match takePackage d with
      | .item e rest => .item e (rest ++ x)
      | .more k => .more k
      | .stuck => .stuck := by
  have happ := extractLoop_append ⟨0, udHeader [], [], d⟩ x (Nat.zero_le 1) h
  unfold takePackage
  dsimp only at happ ⊢
  rw [happ]
  dsimp only
  rw [if_neg (not_lt.mpr h), if_neg (not_lt.mpr h)]
  split
  · rfl
  · rfl

theorem incremental_takePackage : Incremental takePackage fun d => takePackage d ≠ .stuck where
  shorter := by
    intro d rest e h
    unfold takePackage at h
    dsimp only at h
    split at h
    · exact nomatch h
    next hc =>
      split at h
      · exact nomatch h
      · cases h
        exact (extractLoop_found _ (Nat.zero_le 1) (not_lt.mp hc)).2.2 rfl
  item_append := by
    intro d rest e x _ h
    have hc : 2 ≤ (extractLoop ⟨0, udHeader [], [], d⟩).count := by
      by_contra hc
      rw [takePackage, if_pos (not_le.mp hc)] at h
      exact nomatch h
    rw [takePackage_append hc, h]
  more_append := by
    intro d k x hg h
    obtain ⟨rfl, -⟩ := takePackage_more h
    exact ⟨rfl, hg⟩
  kept := by
    intro d k h
    obtain ⟨rfl, -⟩ := takePackage_more h
    exact h
  total := by
    intro d x hg h
    have hc : 2 ≤ (extractLoop ⟨0, udHeader [], [], d⟩).count := by
      by_contra hc
      rw [takePackage, if_pos (not_le.mp hc)] at h
      exact nomatch h
    rw [takePackage_append hc, h] at hg
    exact hg rfl

/-- No package: `aml_extract_package` leaves everything. -/
theorem extractPackage_more (h : UdHeader) (hm : takePackage d = .more k) :
    (extractPackage h d).cc = [] ∧ (extractPackage h d).left = d := by
  obtain ⟨-, hc⟩ := takePackage_more hm
  have hc' : (extractLoop ⟨0, h, [], d⟩).count < 2 := by
    rcases extractLoop_header ⟨0, udHeader [], [], d⟩ h rfl with heq | ⟨-, h0⟩
    · exact heq ▸ hc
    · exact lt_of_eq_of_lt h0 Nat.two_pos
  unfold extractPackage
  split
  · exact ⟨rfl, rfl⟩
  · dsimp only
    rw [if_pos hc']
    exact ⟨rfl, rfl⟩

/-- A package: `aml_extract_package` gives it back, and leaves the data from the next header on. -/
theorem extractPackage_item (h : UdHeader) {rest : List Byte} (hi : takePackage d = .item e rest) :
    extractPackage h d = ⟨rest, e.cc, e.header⟩ ∧ e.cc ≠ [] ∧ rest ≠ [] := by
  unfold takePackage at hi
  dsimp only at hi
  split at hi
  · exact nomatch hi
  next hc =>
    split at hi
    · exact nomatch hi
    next hmod =>
      cases hi
      have hfound := extractLoop_found ⟨0, udHeader [], [], d⟩ (Nat.zero_le 1) (not_lt.mp hc)
      have heq : extractLoop ⟨0, h, [], d⟩ = extractLoop ⟨0, udHeader [], [], d⟩ := by
        rcases extractLoop_header ⟨0, udHeader [], [], d⟩ h rfl with heq | ⟨h0, -⟩
        · exact heq
        · omega
      have hd := hfound.2.1
      dsimp only at hd
      refine ⟨?_, ?_, ?_⟩
      · rw [extractPackage, if_neg (by omega)]
        dsimp only
        rw [heq, if_neg hc]
      · refine List.ne_nil_of_length_pos ?_
        rw [List.length_drop]
        omega
      · exact List.ne_nil_of_length_pos (by omega)

/-- The loop of the thread drains its data. -/
theorem packages_of_drains {es : List Package} (hd : Drains takePackage d es k) (h : UdHeader) :
    (packages h d).1 = es ∧ (packages h d).2.1 = k := by
  induction hd generalizing h with
  | @item d rest k e es he _ ih =>
    obtain ⟨heq, hcc, hrest⟩ := extractPackage_item h he
    rw [packages, heq]
    dsimp only
    rw [dif_pos ⟨hcc, hrest⟩, if_pos hcc]
    exact ⟨congrArg _ (ih _).1, (ih _).2⟩
  | @more d k hm =>
    obtain ⟨hcc, hleft⟩ := extractPackage_more h hm
    obtain ⟨rfl, -⟩ := takePackage_more hm
    rw [packages, dif_neg fun hr => hr.1 hcc, if_neg (not_not.mpr hcc)]
    exact ⟨rfl, hleft⟩

end

/-- A read drains what is in the buffer with it. -/
theorem readStep_drains {t : Thread} {c : List Byte} {es : List Package} {k : List Byte} (hc : Fits t c)
    (hkept : takePackage t.left = .more t.left) (hd : Drains takePackage (t.left ++ c) es k) :
    (readStep t c).2 = es ∧ (readStep t c).1.left = k := by
  by_cases hnil : c = []
  · rw [readStep, if_pos (.inl hnil)]
    rw [hnil, List.append_nil] at hd
    obtain ⟨rfl, rfl⟩ := hd.unique (.more hkept)
    exact ⟨rfl, rfl⟩
  · rw [readStep, if_neg (not_or.mpr ⟨hnil, not_lt.mpr hc⟩)]
    exact packages_of_drains hd t.pheader

/-! ## Streams of packages -/

/-- A caption header starts at byte `i`. -/
def HeaderAt (s : List Byte) (i : Nat) : Prop := i + 16 ≤ s.length ∧ isCaption (s.drop i) = true

/-- The data starts with a header, and is cut into packages: a header, and the data between its end
and the next header, which comes within 240 bytes. What is behind the last header is no package yet. -/
inductive Blocks : List Byte → List (List Byte × List Byte) → Prop
  | last {t : List Byte} (hhead : HeaderAt t 0) (hno : ∀ i, 16 ≤ i → ¬ HeaderAt t i) : Blocks t []
  | block {hd d rest : List Byte} {bs : List (List Byte × List Byte)} (hlen : hd.length = 16)
      (hhead : HeaderAt (hd ++ (d ++ rest)) 0) (hgap : d.length ≤ 240)
      (hno : ∀ i, i < d.length → ¬ HeaderAt (d ++ rest) i) (hrest : Blocks rest bs) :
      Blocks (hd ++ (d ++ rest)) ((hd, d) :: bs)

/-- A stream: the data before its first header, and its packages. -/
structure Stream (s g : List Byte) (bs : List (List Byte × List Byte)) : Prop where
  before : ∀ i, i < g.length → ¬ HeaderAt s i
  blocks : (s = g ∧ bs = []) ∨ ∃ t, s = g ++ t ∧ Blocks t bs

/-- The package that the thread passes on for a header and its data: the bytes of the header from
the ninth on and then the data, in groups of one or two words, each in reversed order. -/
structure Passed (b : List Byte × List Byte) (p : Package) : Prop where
  header : p.header = udHeader b.1
  size : p.cc.length = 8 + b.2.length
  cc : ∃ groups : List (List Byte), groups.flatten = b.2 ∧ (∀ x ∈ groups, x.length = 4 ∨ x.length = 8) ∧
    p.cc = (b.1.drop 8).reverse ++ (groups.map List.reverse).flatten

section
variable {h : UdHeader} {cc g d hd rest : List Byte}

/-- Before the first header the loop goes word by word. -/
theorem extractLoop_skip (h4 : 4 ∣ g.length) (hrest : 16 ≤ rest.length)
    (hno : ∀ i, i < g.length → 4 ∣ i → isCaption ((g ++ rest).drop i) = false) :
    extractLoop ⟨0, h, cc, g ++ rest⟩ = extractLoop ⟨0, h, cc, rest⟩ := by
  induction hn : g.length using Nat.strongRecOn generalizing g with
  | ind n ih =>
    by_cases h0 : g.length = 0
    · rw [List.length_eq_zero_iff.mp h0, List.nil_append]
    · have hcap : isCaption (g ++ rest) = false := hno 0 (by omega) (dvd_zero 4)
      have hdrop : (g ++ rest).drop 4 = g.drop 4 ++ rest := List.drop_append_of_le_length (by omega)
      have hlen : (g.drop 4).length = g.length - 4 := List.length_drop
      conv_lhs => rw [extractLoop]
      dsimp only
      rw [List.length_append, if_neg (by omega), if_neg (by rw [hcap]; exact nofun), if_neg (by omega), hdrop]
      refine ih (g.drop 4).length (by omega) (by omega) (fun i hi hdvd => ?_) rfl
      have := hno (4 + i) (by omega) (by omega)
      rwa [← List.drop_drop, hdrop] at this

/-- **The data of a package**: the loop gets to the next header, however its words look. -/
theorem extractLoop_data (h4 : 4 ∣ d.length) (hrest : HeaderAt rest 0)
    (hno : ∀ i, i < d.length → 4 ∣ i → isCaption ((d ++ rest).drop i) = false) :
    ∃ groups : List (List Byte), groups.flatten = d ∧ (∀ x ∈ groups, x.length = 4 ∨ x.length = 8) ∧
      extractLoop ⟨1, h, cc, d ++ rest⟩ = ⟨2, h, cc ++ (groups.map List.reverse).flatten, rest⟩ := by
  obtain ⟨h16, hcap⟩ := hrest
  rw [List.drop_zero] at hcap
  induction hn : d.length using Nat.strongRecOn generalizing d cc with
  | ind n ih =>
    by_cases h0 : d.length = 0
    · refine ⟨[], (List.length_eq_zero_iff.mp h0).symm, nofun, ?_⟩
      rw [List.length_eq_zero_iff.mp h0, List.nil_append, extractLoop]
      dsimp only
      rw [if_neg (by omega), if_pos hcap, if_neg (by omega), List.map_nil, List.flatten_nil,
        List.append_nil]
    · have hdrop : ∀ m, m ≤ d.length → (d ++ rest).drop m = d.drop m ++ rest := fun m hm =>
        List.drop_append_of_le_length hm
      have hfirst : isCaption (d ++ rest) = false := hno 0 (by omega) (dvd_zero 4)
      have hgroup : ∀ m, 4 ∣ m → 0 < m → m ≤ d.length → ∃ groups : List (List Byte),
          groups.flatten = d.drop m ∧ (∀ x ∈ groups, x.length = 4 ∨ x.length = 8) ∧
          extractLoop ⟨1, h, cc ++ (d.take m).reverse, d.drop m ++ rest⟩ =
            ⟨2, h, cc ++ (d.take m).reverse ++ (groups.map List.reverse).flatten, rest⟩ := by
        intro m hm hpos hle
        have hlen : (d.drop m).length = d.length - m := List.length_drop
        refine ih (d.drop m).length (by omega) (by omega) (fun i hi hdvd => ?_) rfl
        have := hno (m + i) (by omega) (by omega)
        rwa [← List.drop_drop, hdrop m hle] at this
      rw [extractLoop]
      dsimp only
      rw [List.length_append, if_neg (by omega), if_neg (by rw [hfirst]; exact nofun), if_pos rfl,
        hdrop 4 (by omega)]
      by_cases hid : hasId (d.drop 4 ++ rest) = true
      · rw [if_neg (by rw [hid]; exact fun h' => nomatch h'.2)]
        obtain ⟨groups, hflat, hall, heq⟩ := hgroup 4 (dvd_refl 4) (by omega) (by omega)
        have hcopy : copy4 (d ++ rest) = (d.take 4).reverse := by
          rw [copy4, List.take_append_of_le_length (by omega)]
        refine ⟨d.take 4 :: groups, ?_, ?_, ?_⟩
        · rw [List.flatten_cons, hflat, List.take_append_drop]
        · intro x hx
          rcases List.mem_cons.mp hx with rfl | hx
          · exact .inl (by rw [List.length_take]; omega)
          · exact hall x hx
        · rw [hcopy, heq, List.map_cons, List.flatten_cons, List.append_assoc]
      · -- a header at the next word would have been seen
        have h8 : 8 ≤ d.length := by
          by_contra hlt
          rw [List.drop_of_length_le (show d.length ≤ 4 by omega), List.nil_append] at hid
          exact hid (hasId_of_isCaption hcap)
        rw [if_pos ⟨by omega, by simpa using hid⟩, hdrop 8 h8]
        obtain ⟨groups, hflat, hall, heq⟩ := hgroup 8 (by omega) (by omega) h8
        have hcopy : copy4 (d.drop 4 ++ rest) ++ copy4 (d ++ rest) = (d.take 8).reverse := by
          rw [copy4, List.take_append_of_le_length (by rw [List.length_drop]; omega), copy4,
            List.take_append_of_le_length (by omega), ← List.reverse_append, ← List.take_add]
        refine ⟨d.take 8 :: groups, ?_, ?_, ?_⟩
        · rw [List.flatten_cons, hflat, List.take_append_drop]
        · intro x hx
          rcases List.mem_cons.mp hx with rfl | hx
          · exact .inr (by rw [List.length_take]; omega)
          · exact hall x hx
        · rw [List.append_assoc cc, hcopy, heq, List.map_cons, List.flatten_cons, List.append_assoc]

/-- Without a header nothing is found. -/
theorem extractLoop_no_header (s : Scan) (hno : ∀ i, ¬ HeaderAt s.p i) :
    (extractLoop s).count = s.count := by
  have hdrop : ∀ {p : List Byte} (n : Nat), (∀ i, ¬ HeaderAt p i) → ∀ i, ¬ HeaderAt (p.drop n) i := by
    intro p n hno i ⟨h16, hcap⟩
    rw [List.length_drop] at h16
    rw [List.drop_drop] at hcap
    exact hno (n + i) ⟨by omega, hcap⟩
  fun_induction extractLoop s with
  | case1 => rfl
  | case2 s hlen hcap hc => exact absurd ⟨by omega, hcap⟩ (hno 0)
  | case3 s hlen hcap hc => exact absurd ⟨by omega, hcap⟩ (hno 0)
  | case4 s hlen hcap hc _ ih => exact ih (hdrop 8 hno)
  | case5 s hlen hcap hc _ ih => exact ih (hdrop 4 hno)
  | case6 s hlen hcap hc ih => exact ih (hdrop 4 hno)

/-- The first header is taken, with the bytes from its ninth on. -/
theorem extractLoop_head (hlen : hd.length = 16) (hhead : HeaderAt (hd ++ d) 0) :
    extractLoop ⟨0, h, [], hd ++ d⟩ = extractLoop ⟨1, udHeader hd, (hd.drop 8).reverse, d⟩ := by
  obtain ⟨h16, hcap⟩ := hhead
  rw [List.drop_zero] at hcap
  have hcopy : copy4 ((hd ++ d).drop 12) ++ copy4 ((hd ++ d).drop 8) = (hd.drop 8).reverse := by
    have hsplit : (hd.drop 8).take 4 ++ (hd.drop 12).take 4 = hd.drop 8 := by
      rw [List.take_of_length_le (l := hd.drop 12) (by rw [List.length_drop]; omega),
        show hd.drop 12 = (hd.drop 8).drop 4 by rw [List.drop_drop], List.take_append_drop]
    rw [List.drop_append_of_le_length (by omega), List.drop_append_of_le_length (by omega),
      copy4_append (by rw [List.length_drop]; omega), copy4_append (by rw [List.length_drop]; omega),
      copy4, copy4, ← List.reverse_append, hsplit]
  conv_lhs => rw [extractLoop]
  dsimp only
  rw [if_neg (by omega), if_pos hcap, if_pos rfl, List.nil_append, hcopy, udHeader_append (by omega),
    List.drop_left' hlen]

/-- A package at the front of the data, behind what is before the first header. -/
theorem takePackage_block (h4g : 4 ∣ g.length) (h4 : 4 ∣ d.length) (hgap : d.length ≤ 240)
    (hlen : hd.length = 16) (hhead : HeaderAt (hd ++ (d ++ rest)) 0) (hrest : HeaderAt rest 0)
    (hnog : ∀ i, i < g.length → 4 ∣ i → isCaption ((g ++ (hd ++ (d ++ rest))).drop i) = false)
    (hno : ∀ i, i < d.length → 4 ∣ i → isCaption ((d ++ rest).drop i) = false) :
    ∃ e, takePackage (g ++ (hd ++ (d ++ rest))) = .item e rest ∧ Passed (hd, d) e := by
  have h16 : 16 ≤ (hd ++ (d ++ rest)).length := hhead.1
  obtain ⟨groups, hflat, hall, heq⟩ := extractLoop_data h4 hrest hno
  have hcc : ((hd.drop 8).reverse ++ (groups.map List.reverse).flatten).length = 8 + d.length := by
    have hsum : (groups.map List.reverse).flatten.length = groups.flatten.length := by
      simp [List.length_flatten, Function.comp_def]
    rw [List.length_append, List.length_reverse, List.length_drop, hsum, hflat, hlen]
  refine ⟨⟨udHeader hd, (hd.drop 8).reverse ++ (groups.map List.reverse).flatten⟩, ?_,
    ⟨rfl, hcc, groups, hflat, hall, rfl⟩⟩
  unfold takePackage
  rw [extractLoop_skip h4g h16 hnog, extractLoop_head hlen hhead, heq]
  dsimp only
  rw [if_neg (by omega), hcc, if_neg (by omega), Nat.div_eq_of_lt (by omega)]
  rfl

theorem Blocks.headerAt {t : List Byte} {bs : List (List Byte × List Byte)} (h : Blocks t bs) :
    HeaderAt t 0 := by
  cases h with
  | last hhead => exact hhead
  | block _ hhead => exact hhead

theorem isCaption_of_not_headerAt {s : List Byte} {i : Nat} (h : ¬ HeaderAt s i)
    (h16 : i + 16 ≤ s.length) : isCaption (s.drop i) = false :=
  Bool.eq_false_iff.mpr fun hcap => h ⟨h16, hcap⟩

/-- **The packages of a stream**, with the first header and every next one at a whole word. -/
theorem drains_of_blocks {t : List Byte} {bs : List (List Byte × List Byte)} (ht : Blocks t bs)
    (h4g : 4 ∣ g.length) (h4 : ∀ b ∈ bs, 4 ∣ b.2.length)
    (hnog : ∀ i, i < g.length → ¬ HeaderAt (g ++ t) i) :
    ∃ es k, Drains takePackage (g ++ t) es k ∧ List.Forall₂ Passed bs es := by
  induction ht generalizing g with
  | @last t hhead hno =>
    refine ⟨[], g ++ t, .more ?_, .nil⟩
    obtain ⟨hd, d, rfl, hlen⟩ : ∃ hd d, t = hd ++ d ∧ hd.length = 16 :=
      ⟨t.take 16, t.drop 16, (List.take_append_drop 16 t).symm, by
        rw [List.length_take, Nat.min_eq_left]
        exact hhead.1⟩
    have hnod : ∀ i, ¬ HeaderAt d i := by
      rintro i ⟨h16, hcap⟩
      refine hno (16 + i) (Nat.le_add_right _ _) ⟨?_, ?_⟩
      · rw [List.length_append]
        omega
      · rwa [← List.drop_drop, List.drop_left' hlen]
    have hcount : (extractLoop ⟨0, udHeader [], [], g ++ (hd ++ d)⟩).count = 1 := by
      rw [extractLoop_skip h4g hhead.1, extractLoop_head hlen hhead, extractLoop_no_header _ hnod]
      intro i hi _
      refine isCaption_of_not_headerAt (hnog i hi) ?_
      have := hhead.1
      rw [List.length_append]
      omega
    rw [takePackage, hcount, if_pos (by omega)]
  | @block hd d rest bs hlen hhead hgap hno hrest ih =>
    have hr := hrest.headerAt
    have h16 := hr.1
    obtain ⟨e, he, hpassed⟩ := takePackage_block h4g (h4 _ List.mem_cons_self) hgap hlen hhead hr
      (fun i hi _ => isCaption_of_not_headerAt (hnog i hi) (by
        simp only [List.length_append]
        omega))
      (fun i hi _ => isCaption_of_not_headerAt (hno i hi) (by
        rw [List.length_append]
        omega))
    obtain ⟨es, k, hdr, hall⟩ := ih (g := []) (dvd_zero 4) (fun b hb => h4 b (List.mem_cons_of_mem _ hb))
      (fun i hi => absurd hi (Nat.not_lt_zero i))
    exact ⟨e :: es, k, .item he hdr, .cons hpassed hall⟩

end

/-- The packages of a stream do not depend on how it is read. -/
theorem run_of_drains {s : List Byte} {es : List Package} {k : List Byte} (hd : Drains takePackage s es k)
    {cs : List (List Byte)} (hs : cs.flatten = s) (hfit : Each Fits readStep threadStart cs) :
    (run readStep threadStart cs).2.flatten = es := by
  have hempty : takePackage threadStart.left = .more threadStart.left := by
    rw [takePackage, extractLoop]
    rfl
  subst hs
  have hgood : ∀ r, Left takePackage (threadStart.left ++ cs.flatten) r → takePackage r ≠ .stuck :=
    fun r hl => hd.ne_stuck hl
  obtain ⟨es', k', hf⟩ := feeds_total incremental_takePackage hgood
  obtain ⟨rfl, rfl⟩ := hd.unique (hf.flatten incremental_takePackage hempty hgood)
  refine (Feeds.run_eq (fun _ => True) Thread.left id id incremental_takePackage rfl (fun _ _ => rfl)
    (fun _ hc hk hd => ?_) trivial hempty hfit (by rwa [List.map_id])).1
  obtain ⟨h1, h2⟩ := readStep_drains hc hk hd
  exact ⟨h1, h2, trivial⟩

/-- The packages of a stream whose headers are at whole words, at most 240 bytes apart: every way of
reading it gives one for each header that has a next one, with the bytes between the two. -/
theorem packages_of_stream {s g : List Byte} {bs : List (List Byte × List Byte)} (hs : Stream s g bs)
    (h4g : (∃ i, HeaderAt s i) → 4 ∣ g.length) (h4 : ∀ b ∈ bs, 4 ∣ b.2.length)
    {cs cs' : List (List Byte)}
    (hcs : cs.flatten = s) (hcs' : cs'.flatten = s) (hfit : Each Fits readStep threadStart cs)
    (hfit' : Each Fits readStep threadStart cs') :
    ∃ ps, List.Forall₂ Passed bs ps ∧ (run readStep threadStart cs).2.flatten = ps ∧
      (run readStep threadStart cs').2.flatten = ps := by
  obtain ⟨ps, k, hd, hall⟩ : ∃ ps k, Drains takePackage s ps k ∧ List.Forall₂ Passed bs ps := by
    rcases hs.blocks with ⟨rfl, rfl⟩ | ⟨t, rfl, ht⟩
    · -- there is no header
      refine ⟨[], s, .more ?_, .nil⟩
      have hno : ∀ i, ¬ HeaderAt s i := by
        intro i hi
        have := hi.1
        exact hs.before i (by omega) hi
      rw [takePackage, extractLoop_no_header _ hno, if_pos Nat.two_pos]
    · obtain ⟨h16, hcap⟩ := ht.headerAt
      refine drains_of_blocks ht (h4g ⟨g.length, ?_, ?_⟩) h4 hs.before
      · rw [List.length_append]
        omega
      · rwa [List.drop_left]
  exact ⟨ps, hall, run_of_drains hd hcs hfit, run_of_drains hd hcs' hfit'⟩

/-- A header with index 1. -/
def oneHeader : List Byte := [3, 0, 0, 4, 1, 0, 0, 0, 0, 0, 0, 3, 0x34, 0x39, 0x41, 0x47]

theorem headerAt_oneHeader (x : List Byte) : HeaderAt (oneHeader ++ x) 0 := by
  refine ⟨?_, ?_⟩
  · rw [List.length_append]
    exact Nat.le_add_right _ _
  · rw [List.drop_zero, isCaption_append (by decide)]
    rfl

theorem blocks_oneHeader : Blocks oneHeader [] :=
  .last (headerAt_oneHeader []) fun i hi h => by
    have := h.1
    simp only [oneHeader, List.length_cons, List.length_nil] at this
    omega

/-- Three headers, with `d` behind the first and the second one. -/
def threeHeaders (d : List Byte) : List Byte := oneHeader ++ (d ++ (oneHeader ++ (d ++ oneHeader)))

theorem stream_threeHeaders {d : List Byte} (hgap : d.length ≤ 240)
    (hno : ∀ i, i < d.length → ¬ HeaderAt (d ++ oneHeader) i)
    (hno' : ∀ i, i < d.length → ¬ HeaderAt (d ++ (oneHeader ++ (d ++ oneHeader))) i) :
    Stream (threeHeaders d) [] [(oneHeader, d), (oneHeader, d)] :=
  ⟨fun _ hi => absurd hi (Nat.not_lt_zero _), .inr ⟨_, rfl,
    .block rfl (headerAt_oneHeader _) hgap hno'
      (.block rfl (headerAt_oneHeader _) hgap hno blocks_oneHeader)⟩⟩

theorem length_extractPackage_le (h : UdHeader) (d : List Byte) :
    (extractPackage h d).left.length ≤ d.length := by
  unfold extractPackage
  split
  · exact Nat.le_refl _
  · dsimp only
    split
    · exact Nat.le_refl _
    next h2 => exact (extractLoop_found _ (Nat.zero_le 1) (not_lt.mp h2)).2.1

theorem length_packages_le (h : UdHeader) (d : List Byte) : (packages h d).2.1.length ≤ d.length := by
  fun_induction packages h d with
  | case1 h d r out hr q ih => exact ih.trans (length_extractPackage_le h d)
  | case2 h d r out hr => exact length_extractPackage_le h d

theorem length_readStep_le (t : Thread) (read : List Byte) :
    (readStep t read).1.left.length ≤ t.left.length + read.length := by
  unfold readStep
  split
  · exact Nat.le_add_right _ _
  · exact (length_packages_le _ _).trans (Nat.le_of_eq List.length_append)

/-- With two bytes behind each header, the second header is not at a whole word: its package is lost in
the first one. -/
theorem length_oddPackages {reads : List (List Byte)} (h : reads.flatten = threeHeaders [0, 0])
    (hfit : Each Fits readStep threadStart reads) :
    (run readStep threadStart reads).2.flatten.length = 1 := by
  obtain ⟨e, he, -⟩ : ∃ e, takePackage ([] ++ (oneHeader ++ (([0, 0] ++ (oneHeader ++ [0, 0])) ++
      oneHeader))) = .item e oneHeader ∧ Passed (oneHeader, [0, 0] ++ (oneHeader ++ [0, 0])) e :=
    takePackage_block (dvd_zero 4) (by decide) (by decide) rfl (headerAt_oneHeader _)
      (headerAt_oneHeader []) (fun i hi => absurd hi (Nat.not_lt_zero i)) (by decide)
  obtain ⟨es, k, hd, hes⟩ := drains_of_blocks (g := []) blocks_oneHeader (dvd_zero 4) nofun
    fun i hi => absurd hi (Nat.not_lt_zero i)
  cases hes
  rw [run_of_drains (Drains.item he hd) h hfit]
  rfl

end VendorAmlogic.Userdata.Mpeg
