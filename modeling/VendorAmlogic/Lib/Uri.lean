import Mathlib.Data.List.TakeWhile
import VendorAmlogic.Lib.CString

/-!
# URIs

The generic syntax of RFC 3986: the parts of a reference, the removal of dot
segments, and the resolution of a reference against a base. A path is read as
directories, each with a slash after it, and a name.
-/

namespace VendorAmlogic.Lib

structure Uri where
  scheme : Option (List Byte)
  authority : Option (List Byte)
  path : List Byte
  query : Option (List Byte)
  fragment : Option (List Byte)
  deriving DecidableEq, Repr

/-- `?` and `#` are after the path. -/
def pathEnd (c : Byte) : Bool := c == 0x3f || c == 0x23

def authorityEnd (c : Byte) : Bool := c == 0x2f || pathEnd c

def schemeEnd (c : Byte) : Bool := c == 0x3a || authorityEnd c

namespace Uri

/-! ### Parts -/

def splitScheme (s : List Byte) : Option (List Byte) × List Byte :=
  match s.dropWhile (!schemeEnd ·) with
  | 0x3a :: rest =>
    if s.takeWhile (!schemeEnd ·) = [] then (none, s) else (some (s.takeWhile (!schemeEnd ·)), rest)
  | _ => (none, s)

def splitAuthority : List Byte → Option (List Byte) × List Byte
  | 0x2f :: 0x2f :: s => (some (s.takeWhile (!authorityEnd ·)), s.dropWhile (!authorityEnd ·))
  | s => (none, s)

def splitQuery : List Byte → Option (List Byte) × List Byte
  | 0x3f :: s => (some (s.takeWhile (· ≠ 0x23)), s.dropWhile (· ≠ 0x23))
  | s => (none, s)

def splitFragment : List Byte → Option (List Byte)
  | 0x23 :: s => some s
  | _ => none

def parse (s : List Byte) : Uri :=
  let (scheme, s) := splitScheme s
  let (authority, s) := splitAuthority s
  let path := s.takeWhile (!pathEnd ·)
  let (query, s) := splitQuery (s.dropWhile (!pathEnd ·))
  { scheme, authority, path, query, fragment := splitFragment s }

def schemeText (u : Uri) : List Byte := u.scheme.elim [] (· ++ [0x3a])

def authorityText (u : Uri) : List Byte := u.authority.elim [] ([0x2f, 0x2f] ++ ·)

/-- The query and the fragment. -/
def tailText (u : Uri) : List Byte :=
  u.query.elim [] (0x3f :: ·) ++ u.fragment.elim [] (0x23 :: ·)

def recompose (u : Uri) : List Byte := u.schemeText ++ (u.authorityText ++ (u.path ++ u.tailText))

/-! ### Resolution -/

/-- The output without its last segment and the slash before it. -/
def dropSegment (out : List Byte) : List Byte :=
  match strrchr 0x2f out with
  | some rest => out.take (out.length - rest.length)
  | none => []

/-- The rounds of the removal of dot segments. -/
def removeLoop : Nat → List Byte → List Byte → List Byte
  | 0, out, _ => out
  | fuel + 1, out, input =>
    if bytes "../" <+: input then removeLoop fuel out (input.drop 3)
    else if bytes "./" <+: input then removeLoop fuel out (input.drop 2)
    else if bytes "/./" <+: input then removeLoop fuel out (input.drop 2)
    else if input = bytes "/." then removeLoop fuel out [0x2f]
    else if bytes "/../" <+: input then removeLoop fuel (dropSegment out) (input.drop 3)
    else if input = bytes "/.." then removeLoop fuel (dropSegment out) [0x2f]
    else if input = bytes "." ∨ input = bytes ".." then out
    else
      match input with
      | [] => out
      | c :: s => removeLoop fuel (out ++ c :: s.takeWhile (· ≠ 0x2f)) (s.dropWhile (· ≠ 0x2f))

def removeDotSegments (path : List Byte) : List Byte := removeLoop path.length [] path

/-- The path of a reference, put after the directories of the base. -/
def merge (base : Uri) (path : List Byte) : List Byte :=
  if base.authority.isSome ∧ base.path = [] then 0x2f :: path
  else
    match strrchr 0x2f base.path with
    | some rest => base.path.take (base.path.length - rest.length) ++ 0x2f :: path
    | none => path

/-- The target of the reference `r`. -/
def resolve (base r : Uri) : Uri :=
  if r.scheme.isSome then { r with path := removeDotSegments r.path }
  else if r.authority.isSome then
    { r with scheme := base.scheme, path := removeDotSegments r.path }
  else if r.path = [] then
    { base with query := r.query.or base.query, fragment := r.fragment }
  else if r.path.head? = some 0x2f then
    { base with path := removeDotSegments r.path, query := r.query, fragment := r.fragment }
  else
    { base with
      path := removeDotSegments (merge base r.path), query := r.query, fragment := r.fragment }

example : ((parse (bytes "http://a/b/c/d;p?q")).resolve (parse (bytes "../../g?y/./x"))).recompose =
    bytes "http://a/g?y/./x" := by decide +kernel

/-- What the parts of a reference are made of. -/
structure WellFormed (u : Uri) : Prop where
  scheme : ∀ s ∈ u.scheme, ∀ c ∈ s, schemeEnd c = false
  authority : ∀ a ∈ u.authority, ∀ c ∈ a, authorityEnd c = false
  path : ∀ c ∈ u.path, pathEnd c = false
  rooted : u.authority.isSome → u.path = [] ∨ u.path.head? = some 0x2f

theorem not_of_mem_takeWhile {p : Byte → Bool} {s : List Byte} {c : Byte}
    (h : c ∈ s.takeWhile (!p ·)) : p c = false := by
  simpa using List.mem_takeWhile_imp h

theorem splitScheme_text (s : List Byte) :
    (splitScheme s).1.elim [] (· ++ [0x3a]) ++ (splitScheme s).2 = s := by
  unfold splitScheme
  split
  · rename_i rest h
    split
    · rfl
    · show s.takeWhile (!schemeEnd ·) ++ [0x3a] ++ rest = s
      rw [List.append_assoc, List.singleton_append]
      exact h ▸ List.takeWhile_append_dropWhile
  · rfl

theorem splitAuthority_text (s : List Byte) :
    (splitAuthority s).1.elim [] ([0x2f, 0x2f] ++ ·) ++ (splitAuthority s).2 = s := by
  unfold splitAuthority
  split
  · simp [List.takeWhile_append_dropWhile]
  · rfl

theorem splitQuery_text (s : List Byte) :
    (splitQuery s).1.elim [] (0x3f :: ·) ++ (splitQuery s).2 = s := by
  unfold splitQuery
  split
  · simp [List.takeWhile_append_dropWhile]
  · rfl

theorem splitFragment_text {s : List Byte} (h : s = [] ∨ s.head? = some 0x23) :
    (splitFragment s).elim [] (0x23 :: ·) = s := by
  rcases s with _ | ⟨c, s⟩
  · rfl
  · obtain rfl : c = 0x23 := by simpa using h
    rfl

/-- What is left of a list from the first stop on. -/
theorem dropWhile_stop (p : Byte → Bool) (s : List Byte) :
    s.dropWhile p = [] ∨ ∃ c t, s.dropWhile p = c :: t ∧ p c = false := by
  rcases h : s.dropWhile p with _ | ⟨c, t⟩
  · exact .inl rfl
  · have := List.head?_dropWhile_not p s
    rw [h] at this
    exact .inr ⟨c, t, rfl, by simpa using this⟩

theorem splitQuery_rest (s : List Byte) :
    (splitQuery (s.dropWhile (!pathEnd ·))).2 = [] ∨
      (splitQuery (s.dropWhile (!pathEnd ·))).2.head? = some 0x23 := by
  rcases dropWhile_stop (!pathEnd ·) s with h | ⟨c, t, h, hc⟩
  · exact .inl (by rw [h]; rfl)
  · rw [h]
    by_cases hq : c = 0x3f
    · subst hq
      rcases dropWhile_stop (· ≠ 0x23) t with ht | ⟨d, u, ht, hd⟩
      · exact .inl ht
      · refine .inr ?_
        show (t.dropWhile (· ≠ 0x23)).head? = _
        rw [ht]
        simpa using hd
    · obtain rfl : c = 0x23 := by
        have hc : ¬ c = 0x3f → c = 0x23 := by simpa [pathEnd] using hc
        exact hc hq
      exact .inr rfl

theorem recompose_parse (s : List Byte) : (parse s).recompose = s := by
  have hq := splitQuery_text ((splitAuthority (splitScheme s).2).2.dropWhile (!pathEnd ·))
  have hf := splitFragment_text (splitQuery_rest (splitAuthority (splitScheme s).2).2)
  calc (parse s).recompose
      = (splitScheme s).1.elim [] (· ++ [0x3a]) ++
          ((splitAuthority (splitScheme s).2).1.elim [] ([0x2f, 0x2f] ++ ·) ++
            ((splitAuthority (splitScheme s).2).2.takeWhile (!pathEnd ·) ++
              (splitAuthority (splitScheme s).2).2.dropWhile (!pathEnd ·))) := by
        simp only [recompose, parse, schemeText, authorityText, tailText]
        rw [hf, hq]
    _ = s := by
        rw [List.takeWhile_append_dropWhile, splitAuthority_text, splitScheme_text]

theorem splitAuthority_rooted {s : List Byte} (h : (splitAuthority s).1.isSome) :
    (splitAuthority s).2.takeWhile (!pathEnd ·) = [] ∨
      ((splitAuthority s).2.takeWhile (!pathEnd ·)).head? = some 0x2f := by
  unfold splitAuthority at h ⊢
  split at h
  · rename_i s
    rcases dropWhile_stop (!authorityEnd ·) s with hs | ⟨c, t, hs, hc⟩
    · exact .inl (by simp [hs])
    · by_cases hslash : c = 0x2f
      · exact .inr (by subst hslash; simp [hs, pathEnd])
      · have hc : ¬ c = 0x2f → pathEnd c = true := by simpa [authorityEnd] using hc
        exact .inl (by simp [hs, hc hslash])
  · cases h

theorem wellFormed_parse (s : List Byte) : (parse s).WellFormed where
  scheme name hname c hc := by
    simp only [parse, splitScheme] at hname
    split at hname
    · split at hname
      · cases hname
      · cases hname
        exact not_of_mem_takeWhile hc
    · cases hname
  authority a ha c hc := by
    simp only [parse, splitAuthority] at ha
    split at ha
    · cases ha
      exact not_of_mem_takeWhile hc
    · cases ha
  path c hc := not_of_mem_takeWhile hc
  rooted := splitAuthority_rooted

/-! ### Directories -/

/-- The directories of a path, each with a slash after it. -/
def dirs (path : List Byte) : List (List Byte) := (path.splitOn 0x2f).dropLast

def joinDirs (ds : List (List Byte)) : List Byte := ds.flatMap (· ++ [0x2f])

def Slashless (ds : List (List Byte)) : Prop := ∀ d ∈ ds, 0x2f ∉ d

/-- No segment is `.` or `..`. -/
def NoDots (ds : List (List Byte)) : Prop := ∀ d ∈ ds, d ≠ bytes "." ∧ d ≠ bytes ".."

instance (ds : List (List Byte)) : Decidable (NoDots ds) :=
  inferInstanceAs (Decidable (∀ d ∈ ds, d ≠ bytes "." ∧ d ≠ bytes ".."))

/-- The directory after one more segment. -/
def enter (ds : List (List Byte)) (d : List Byte) : List (List Byte) :=
  if d = bytes "." then ds else if d = bytes ".." then ds.dropLast else ds ++ [d]

/-- The directories without dot segments. -/
def normal (ds : List (List Byte)) : List (List Byte) := ds.foldl enter []

@[simp] theorem joinDirs_nil : joinDirs [] = [] := rfl

@[simp] theorem joinDirs_cons (d : List Byte) (ds : List (List Byte)) :
    joinDirs (d :: ds) = d ++ 0x2f :: joinDirs ds := by
  simp [joinDirs]

@[simp] theorem joinDirs_append (ds es : List (List Byte)) :
    joinDirs (ds ++ es) = joinDirs ds ++ joinDirs es := by
  simp [joinDirs]

theorem splitOn_joinDirs {ds : List (List Byte)} {f : List Byte} (h : Slashless ds)
    (hf : 0x2f ∉ f) : (joinDirs ds ++ f).splitOn 0x2f = ds ++ [f] := by
  induction ds with
  | nil => exact List.splitOn_eq_singleton hf
  | cons d ds ih =>
    have hd := h d List.mem_cons_self
    rw [joinDirs_cons, List.append_assoc, List.cons_append,
      List.splitOn_append_cons_self_of_not_mem hd,
      ih fun e he => h e (List.mem_cons_of_mem d he)]
    rfl

theorem dirs_joinDirs {ds : List (List Byte)} {f : List Byte} (h : Slashless ds) (hf : 0x2f ∉ f) :
    dirs (joinDirs ds ++ f) = ds := by
  rw [dirs, splitOn_joinDirs h hf, List.dropLast_concat]

theorem joinDirs_inj {ds es : List (List Byte)} (hd : Slashless ds) (he : Slashless es)
    (h : joinDirs ds = joinDirs es) : ds = es := by
  have hds := dirs_joinDirs hd (f := []) List.not_mem_nil
  have hes := dirs_joinDirs he (f := []) List.not_mem_nil
  rw [← hds, h, hes]

/-- No byte of the text ends a segment. -/
def Plain (d : List Byte) : Prop := ∀ c ∈ d, authorityEnd c = false

instance (d : List Byte) : Decidable (Plain d) :=
  inferInstanceAs (Decidable (∀ c ∈ d, authorityEnd c = false))

theorem Plain.slash {d : List Byte} (h : Plain d) : 0x2f ∉ d := fun hmem =>
  absurd (h _ hmem) (by decide)

theorem plain_of_path {ds : List (List Byte)} {f : List Byte} (hds : Slashless ds) (hf : 0x2f ∉ f)
    (h : ∀ c ∈ joinDirs ds ++ f, pathEnd c = false) : (∀ d ∈ ds, Plain d) ∧ Plain f := by
  have plain {d : List Byte} (hslash : 0x2f ∉ d) (hd : ∀ c ∈ d, c ∈ joinDirs ds ++ f) : Plain d := by
    intro c hc
    have hne : c ≠ 0x2f := fun hslash' => hslash (hslash' ▸ hc)
    rw [authorityEnd, h c (hd c hc), Bool.or_false]
    exact beq_false_of_ne hne
  refine ⟨fun d hd => plain (hds d hd) fun c hc => ?_, plain hf fun c hc => ?_⟩
  · exact List.mem_append_left f (List.mem_flatMap.mpr ⟨d, hd, List.mem_append_left _ hc⟩)
  · exact List.mem_append_right _ hc

/-- Directories at the start of a path are the directories it has there. -/
theorem prefix_of_joinDirs {ds es : List (List Byte)} {f tail : List Byte}
    (hds : ∀ d ∈ ds, Plain d) (hes : ∀ e ∈ es, Plain e) (hf : Plain f)
    (htail : ∀ c ∈ tail.head?, pathEnd c = true)
    (h : joinDirs ds <+: joinDirs es ++ (f ++ tail)) : ds <+: es := by
  induction ds generalizing es with
  | nil => exact List.nil_prefix
  | cons d ds ih =>
    obtain ⟨rest, hrest⟩ := h
    have hd := hds d List.mem_cons_self
    rw [joinDirs_cons, List.append_assoc, List.cons_append] at hrest
    cases es with
    | nil =>
      cases tail with
      | nil =>
        rw [joinDirs_nil, List.nil_append, List.append_nil] at hrest
        exact absurd (hrest ▸ List.mem_append_right d List.mem_cons_self) hf.slash
      | cons c tail =>
        have hc : pathEnd c = true := htail c rfl
        obtain ⟨-, rfl, -⟩ := append_cons_inj_of_stop hd hf (by decide)
          (show authorityEnd c = true by simp [authorityEnd, hc]) hrest
        cases hc
    | cons e es =>
      rw [joinDirs_cons, List.append_assoc, List.cons_append] at hrest
      have he := hes e List.mem_cons_self
      obtain ⟨rfl, hnext⟩ := append_cons_inj_of_first hd.slash he.slash hrest
      exact List.cons_prefix_cons.mpr ⟨rfl, ih (fun e he => hds e (List.mem_cons_of_mem d he))
        (fun e he => hes e (List.mem_cons_of_mem d he)) ⟨rest, hnext⟩⟩

/-- Every path is directories and a name. -/
theorem exists_dirs (path : List Byte) :
    ∃ ds f, Slashless ds ∧ 0x2f ∉ f ∧ path = joinDirs ds ++ f := by
  induction path with
  | nil => exact ⟨[], [], fun d hd => (List.not_mem_nil hd).elim, List.not_mem_nil, rfl⟩
  | cons c path ih =>
    obtain ⟨ds, f, hds, hf, rfl⟩ := ih
    by_cases hc : c = 0x2f
    · refine ⟨[] :: ds, f, fun d hd => ?_, hf, by simp [hc]⟩
      rcases List.mem_cons.mp hd with rfl | hd
      · exact List.not_mem_nil
      · exact hds d hd
    · cases ds with
      | nil => exact ⟨[], c :: f, hds, List.not_mem_cons_of_ne_of_not_mem (Ne.symm hc) hf, rfl⟩
      | cons e ds =>
        refine ⟨(c :: e) :: ds, f, fun d hd => ?_, hf, rfl⟩
        rcases List.mem_cons.mp hd with rfl | hd
        · exact List.not_mem_cons_of_ne_of_not_mem (Ne.symm hc) (hds e List.mem_cons_self)
        · exact hds d (List.mem_cons_of_mem e hd)

/-! ### Dot segments -/

@[simp] theorem removeLoop_nil (fuel : Nat) (out : List Byte) : removeLoop fuel out [] = out := by
  cases fuel with
  | zero => rfl
  | succ fuel => rfl

theorem removeLoop_dot (fuel : Nat) (out t : List Byte) :
    removeLoop (fuel + 1) out (0x2f :: (bytes "." ++ 0x2f :: t)) = removeLoop fuel out (0x2f :: t) :=
  rfl

theorem removeLoop_dots (fuel : Nat) (out t : List Byte) :
    removeLoop (fuel + 1) out (0x2f :: (bytes ".." ++ 0x2f :: t)) =
      removeLoop fuel (dropSegment out) (0x2f :: t) :=
  rfl

/-- A segment that is no dot segment goes to the output. -/
theorem removeLoop_segment {d t : List Byte} (fuel : Nat) (out : List Byte) (hd : 0x2f ∉ d)
    (hdot : d ≠ bytes ".") (hdots : d ≠ bytes "..") (ht : t = [] ∨ t.head? = some 0x2f) :
    removeLoop (fuel + 1) out (0x2f :: (d ++ t)) = removeLoop fuel (out ++ 0x2f :: d) t := by
  have alone : ∀ e : List Byte, 0x2f ∉ e → d ++ t = e → d = e := by
    intro e he h
    rcases ht with rfl | ht
    · simpa using h
    · obtain ⟨u, rfl⟩ : ∃ u, t = 0x2f :: u := ⟨t.tail, List.eq_cons_of_mem_head? ht⟩
      exact absurd (h ▸ List.mem_append_right d List.mem_cons_self) he
  have first : ∀ e : List Byte, 0x2f ∉ e → e ++ [0x2f] <+: d ++ t → d = e := by
    rintro e he ⟨u, hu⟩
    rw [List.append_assoc, List.singleton_append] at hu
    rcases ht with rfl | ht
    · refine absurd ?_ hd
      rw [← List.append_nil d, ← hu]
      exact List.mem_append_right e List.mem_cons_self
    · obtain ⟨v, rfl⟩ : ∃ v, t = 0x2f :: v := ⟨t.tail, List.eq_cons_of_mem_head? ht⟩
      exact (append_cons_inj_of_first he hd hu).1.symm
  have hcut : (d ++ t).takeWhile (· ≠ 0x2f) = d ∧ (d ++ t).dropWhile (· ≠ 0x2f) = t := by
    have hall : ∀ c ∈ d, decide (c ≠ 0x2f) = true := fun c hc => by
      simpa using fun h : c = 0x2f => hd (h ▸ hc)
    have hstop : t.takeWhile (· ≠ 0x2f) = [] ∧ t.dropWhile (· ≠ 0x2f) = t := by
      rcases ht with rfl | ht
      · exact ⟨rfl, rfl⟩
      · obtain ⟨u, rfl⟩ : ∃ u, t = 0x2f :: u := ⟨t.tail, List.eq_cons_of_mem_head? ht⟩
        exact ⟨rfl, rfl⟩
    rw [List.takeWhile_append_of_pos hall, List.dropWhile_append_of_pos hall, hstop.1, hstop.2]
    exact ⟨List.append_nil d, rfl⟩
  have h1 : ¬ bytes "../" <+: 0x2f :: (d ++ t) := fun h =>
    absurd (List.cons_prefix_cons.mp h).1 (by decide)
  have h2 : ¬ bytes "./" <+: 0x2f :: (d ++ t) := fun h =>
    absurd (List.cons_prefix_cons.mp h).1 (by decide)
  have h3 : ¬ bytes "/./" <+: 0x2f :: (d ++ t) := fun h =>
    hdot (first _ (by decide) (List.cons_prefix_cons.mp h).2)
  have h4 : 0x2f :: (d ++ t) ≠ bytes "/." := fun h =>
    hdot (alone _ (by decide) (List.cons.inj h).2)
  have h5 : ¬ bytes "/../" <+: 0x2f :: (d ++ t) := fun h =>
    hdots (first _ (by decide) (List.cons_prefix_cons.mp h).2)
  have h6 : 0x2f :: (d ++ t) ≠ bytes "/.." := fun h =>
    hdots (alone _ (by decide) (List.cons.inj h).2)
  have h7 : ¬ (0x2f :: (d ++ t) = bytes "." ∨ 0x2f :: (d ++ t) = bytes "..") := by
    rintro (h | h)
    · exact absurd (List.cons.inj h).1 (by decide)
    · exact absurd (List.cons.inj h).1 (by decide)
  rw [removeLoop, if_neg h1, if_neg h2, if_neg h3, if_neg h4, if_neg h5, if_neg h6, if_neg h7]
  show removeLoop fuel (out ++ 0x2f :: (d ++ t).takeWhile (· ≠ 0x2f))
    ((d ++ t).dropWhile (· ≠ 0x2f)) = _
  rw [hcut.1, hcut.2]

/-- The segments in the output, each with a slash before it. -/
def leading (ds : List (List Byte)) : List Byte := ds.flatMap (0x2f :: ·)

theorem leading_slash (ds : List (List Byte)) (t : List Byte) :
    leading ds ++ 0x2f :: t = 0x2f :: (joinDirs ds ++ t) := by
  induction ds with
  | nil => rfl
  | cons d ds ih =>
    rw [leading, List.flatMap_cons, ← leading, List.append_assoc, ih]
    simp

theorem dropSegment_leading {ds : List (List Byte)} (h : Slashless ds) :
    dropSegment (leading ds) = leading ds.dropLast := by
  rcases List.eq_nil_or_concat ds with rfl | ⟨es, d, rfl⟩
  · rfl
  · have hd : 0x2f ∉ d := h d (by simp)
    have hlast : leading (es ++ [d]) = leading es ++ 0x2f :: d := by simp [leading]
    rw [List.concat_eq_append, List.dropLast_concat, dropSegment, hlast, strrchr_append hd]
    simp

theorem enter_slashless {ds : List (List Byte)} {d : List Byte} (h : Slashless ds)
    (hd : 0x2f ∉ d) : Slashless (enter ds d) := by
  unfold enter
  split
  · exact h
  · split
    · exact fun e he => h e (List.mem_of_mem_dropLast he)
    · intro e he
      rcases List.mem_append.mp he with he | he
      · exact h e he
      · rwa [List.mem_singleton.mp he]

theorem removeLoop_dirs {ds : List (List Byte)} {f : List Byte} (hf : 0x2f ∉ f)
    (hdot : f ≠ bytes ".") (hdots : f ≠ bytes "..") (hds : Slashless ds)
    (out : List (List Byte)) (hout : Slashless out) (fuel : Nat)
    (hfuel : (joinDirs ds ++ f).length < fuel) :
    removeLoop fuel (leading out) (0x2f :: (joinDirs ds ++ f)) =
      0x2f :: (joinDirs (ds.foldl enter out) ++ f) := by
  induction ds generalizing out fuel with
  | nil =>
    obtain ⟨fuel, rfl⟩ : ∃ n, fuel = n + 1 := ⟨fuel - 1, by omega⟩
    have hseg := removeLoop_segment (t := []) fuel (leading out) hf hdot hdots (.inl rfl)
    rw [List.append_nil, removeLoop_nil, leading_slash] at hseg
    exact hseg
  | cons d ds ih =>
    obtain ⟨fuel, rfl⟩ : ∃ n, fuel = n + 1 := ⟨fuel - 1, by omega⟩
    have hd := hds d List.mem_cons_self
    have hrest : Slashless ds := fun e he => hds e (List.mem_cons_of_mem d he)
    have hsplit : joinDirs (d :: ds) ++ f = d ++ 0x2f :: (joinDirs ds ++ f) := by simp
    have hlt : (joinDirs ds ++ f).length < fuel := by
      rw [hsplit, List.length_append, List.length_cons] at hfuel
      omega
    have hnext := ih hrest (enter out d) (enter_slashless hout hd) fuel hlt
    rw [hsplit, List.foldl_cons, ← hnext]
    by_cases h1 : d = bytes "."
    · rw [h1, removeLoop_dot, enter, if_pos rfl]
    · by_cases h2 : d = bytes ".."
      · rw [h2, removeLoop_dots, dropSegment_leading hout, enter, if_neg (by decide), if_pos rfl]
      · have hlast : leading (out ++ [d]) = leading out ++ 0x2f :: d := by simp [leading]
        rw [removeLoop_segment fuel _ hd h1 h2 (.inr rfl), enter, if_neg h1, if_neg h2, hlast]

/-- On directories and a name that is no dot segment, the rounds are a walk. -/
theorem removeDotSegments_dirs {ds : List (List Byte)} {f : List Byte} (hds : Slashless ds)
    (hf : 0x2f ∉ f) (hdots : NoDots [f]) :
    removeDotSegments (0x2f :: (joinDirs ds ++ f)) = 0x2f :: (joinDirs (normal ds) ++ f) := by
  have hname := hdots f List.mem_cons_self
  exact removeLoop_dirs hf hname.1 hname.2 hds [] (fun d hd => (List.not_mem_nil hd).elim) _
    (Nat.lt_succ_self _)

theorem foldl_enter_of_noDots {es : List (List Byte)} (h : NoDots es) (ds : List (List Byte)) :
    es.foldl enter ds = ds ++ es := by
  induction es generalizing ds with
  | nil => simp
  | cons e es ih =>
    have he := h e List.mem_cons_self
    rw [List.foldl_cons, enter, if_neg he.1, if_neg he.2,
      ih fun d hd => h d (List.mem_cons_of_mem e hd), List.append_assoc, List.singleton_append]

theorem foldl_enter_ups (k : Nat) (ds : List (List Byte)) :
    (List.replicate k (bytes "..")).foldl enter ds = ds.take (ds.length - k) := by
  induction k generalizing ds with
  | zero => simp
  | succ k ih =>
    rw [List.replicate_succ, List.foldl_cons, ih, enter, if_neg (by decide), if_pos rfl,
      List.dropLast_eq_take, List.take_take, List.length_take]
    congr 1
    omega

theorem mem_foldl_enter {es ds : List (List Byte)} {d : List Byte} (h : d ∈ es.foldl enter ds) :
    d ∈ ds ∨ d ∈ es := by
  induction es generalizing ds with
  | nil => exact .inl h
  | cons e es ih =>
    rcases ih h with hd | hd
    · unfold enter at hd
      split at hd
      · exact .inl hd
      · split at hd
        · exact .inl (List.mem_of_mem_dropLast hd)
        · rcases List.mem_append.mp hd with hd | hd
          · exact .inl hd
          · exact .inr (List.mem_singleton.mp hd ▸ List.mem_cons_self)
    · exact .inr (List.mem_cons_of_mem e hd)

theorem mem_of_mem_normal {ds : List (List Byte)} {d : List Byte} (h : d ∈ normal ds) : d ∈ ds :=
  (mem_foldl_enter h).resolve_left List.not_mem_nil

theorem enter_noDots {ds : List (List Byte)} (h : NoDots ds) (d : List Byte) :
    NoDots (enter ds d) := by
  unfold enter
  split
  · exact h
  · rename_i hdot
    split
    · exact fun e he => h e (List.mem_of_mem_dropLast he)
    · rename_i hdots
      intro e he
      rcases List.mem_append.mp he with he | he
      · exact h e he
      · rw [List.mem_singleton.mp he]
        exact ⟨hdot, hdots⟩

theorem foldl_enter_noDots {ds : List (List Byte)} (h : NoDots ds) (es : List (List Byte)) :
    NoDots (es.foldl enter ds) := by
  induction es generalizing ds with
  | nil => exact h
  | cons e es ih => exact ih (enter_noDots h e)

theorem normal_noDots (ds : List (List Byte)) : NoDots (normal ds) :=
  foldl_enter_noDots (fun _ hd => (List.not_mem_nil hd).elim) ds

/-- The `../` at the start of a path, and the path after them. -/
def ups : List Byte → Nat × List Byte
  | 0x2e :: 0x2e :: 0x2f :: s => ((ups s).1 + 1, (ups s).2)
  | s => (0, s)

theorem ups_text (s : List Byte) :
    joinDirs (List.replicate (ups s).1 (bytes "..")) ++ (ups s).2 = s := by
  fun_induction ups s with
  | case1 s ih =>
    rw [List.replicate_succ, joinDirs_cons, List.append_assoc, List.cons_append, ih]
    rfl
  | case2 s => rfl

/-- A path that climbs from some directories, with the dot segments removed. -/
theorem removeDotSegments_ups (ds : List (List Byte)) (hds : Slashless ds) (k : Nat)
    {rest : List Byte} (hrest : NoDots (rest.splitOn 0x2f)) :
    removeDotSegments (0x2f :: (joinDirs ds ++
        (joinDirs (List.replicate k (bytes "..")) ++ rest))) =
      0x2f :: (joinDirs ((normal ds).take ((normal ds).length - k)) ++ rest) := by
  obtain ⟨es, f, hes, hf, rfl⟩ := exists_dirs rest
  rw [splitOn_joinDirs hes hf] at hrest
  have hall : Slashless (ds ++ (List.replicate k (bytes "..") ++ es)) := by
    intro d hd
    rcases List.mem_append.mp hd with hd | hd
    · exact hds d hd
    · rcases List.mem_append.mp hd with hd | hd
      · rw [List.eq_of_mem_replicate hd]
        decide
      · exact hes d hd
  have hwalk : normal (ds ++ (List.replicate k (bytes "..") ++ es)) =
      (normal ds).take ((normal ds).length - k) ++ es := by
    rw [normal, List.foldl_append, List.foldl_append, foldl_enter_ups,
      foldl_enter_of_noDots fun d hd => hrest d (List.mem_append_left [f] hd)]
    rfl
  have hremove := removeDotSegments_dirs hall hf fun d hd => hrest d (List.mem_append_right es hd)
  rw [hwalk] at hremove
  simpa only [joinDirs_append, List.append_assoc] using hremove

theorem merge_dirs {base : Uri} {ds : List (List Byte)} {f : List Byte} (hf : 0x2f ∉ f)
    (hpath : base.path = 0x2f :: (joinDirs ds ++ f)) (path : List Byte) :
    merge base path = 0x2f :: (joinDirs ds ++ path) := by
  rw [merge, if_neg (by simp [hpath]), hpath, ← leading_slash, strrchr_append hf]
  simpa using leading_slash ds path

theorem merge_nil {base : Uri} (ha : base.authority.isSome) (hpath : base.path = [])
    (path : List Byte) : merge base path = 0x2f :: path :=
  if_pos ⟨ha, hpath⟩

theorem tailText_head (u : Uri) : ∀ c ∈ u.tailText.head?, pathEnd c = true := by
  unfold tailText
  cases u.query with
  | some q =>
    intro c hc
    cases hc
    rfl
  | none =>
    cases u.fragment with
    | some f =>
      intro c hc
      cases hc
      rfl
    | none =>
      intro c hc
      cases hc

end Uri

end VendorAmlogic.Lib
