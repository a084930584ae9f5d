import Mathlib.Data.List.TakeWhile
import VendorAmlogic.Hls.Parser

/-!
# Media items of a master playlist

The attributes of a line `EXT-X-MEDIA` as `parseMedia` of
`hls_main/hls_m3uparser.c` reads them. A line is made of attributes, of which
each has a name and a value in quotes or without them. The item has what the
attributes say, in any order of them, but for `FORCED`: where it is there, the
flag is that of `DEFAULT`.
-/

namespace VendorAmlogic.Hls

open VendorAmlogic.Lib

/-! ## Lines -/

/-- An attribute of a line. -/
structure Attr where
  name : List Byte
  value : List Byte
  quoted : Bool
  deriving DecidableEq

/-- The value as it is in the line. -/
def Attr.valueText (a : Attr) : List Byte :=
  if a.quoted then 0x22 :: (a.value ++ [0x22]) else a.value

def Attr.text (a : Attr) : List Byte := a.name ++ 0x3d :: a.valueText

/-- The text is one of an attribute: a value in quotes has neither quotes nor backslashes, and one
without has neither blanks nor commas. -/
structure Attr.Ok (a : Attr) : Prop where
  name : ∀ c ∈ a.name, isBreak c = false ∧ c ≠ 0x3d
  quoted : a.quoted = true → 0x22 ∉ a.value ∧ 0x5c ∉ a.value
  bare : a.quoted = false → 0x22 ∉ a.value ∧ ∀ c ∈ a.value, isBreak c = false

/-- Attributes behind another one, each with its comma. -/
def moreAttrs (attrs : List Attr) : List Byte := attrs.flatMap fun a => 0x2c :: a.text

def attrList : List Attr → List Byte
  | [] => []
  | a :: as => a.text ++ moreAttrs as

/-- The line with these attributes. -/
def mediaLine (attrs : List Attr) : List Byte := bytes "#EXT-X-MEDIA:" ++ attrList attrs

/-- The value of an attribute. -/
def given (attrs : List Attr) (name : List Byte) : Option (List Byte) :=
  (attrs.find? fun a => a.name = name).map (·.value)

/-- The names of the types. -/
def typeNames : List (List Byte × MediaType) :=
  [(bytes "AUDIO", .audio), (bytes "VIDEO", .video), (bytes "SUBTITLES", .subs),
    (bytes "CLOSED-CAPTIONS", .cc)]

/-- A line that is well formed, of a type and a group: no attribute is there twice, the values fit,
and what is asked is answered by `YES` or `NO`. -/
structure WellFormed (attrs : List Attr) (type : MediaType) (groupId : List Byte) : Prop where
  ok : ∀ a ∈ attrs, a.Ok
  distinct : (attrs.map (·.name)).Nodup
  type : ∃ name, given attrs (bytes "TYPE") = some name ∧ (name, type) ∈ typeNames
  groupId : given attrs (bytes "GROUP-ID") = some groupId ∧ groupId ≠ [] ∧ groupId.length < 128
  texts : ∀ name ∈ [bytes "NAME", bytes "LANGUAGE"], ∀ v, given attrs name = some v → v.length < 128
  uri : ∀ v, given attrs (bytes "URI") = some v → v.length < 1024
  flags : ∀ name ∈ [bytes "AUTOSELECT", bytes "DEFAULT", bytes "FORCED"], ∀ v,
    given attrs name = some v → v = bytes "YES" ∨ v = bytes "NO"

/-! ## Attributes -/

/-- A value, and what is behind it. -/
def readValue : List Byte → List Byte × List Byte
  | 0x22 :: s => quotedValue s
  | s => (s.takeWhile (!isBreak ·), s.dropWhile (!isBreak ·))

/-- A text that ends a value: nothing, or a comma. -/
def Ends (rest : List Byte) : Prop := ∀ c ∈ rest.head?, isBreak c = true

section
variable {a : Attr} {attrs : List Attr} {rest v : List Byte}

theorem ends_moreAttrs (attrs : List Attr) : Ends (moreAttrs attrs) := by
  cases attrs with
  | nil => exact fun c hc => absurd hc (Option.not_mem_none c)
  | cons a as =>
    intro c hc
    obtain rfl : 0x2c = c := Option.mem_some.mp hc
    rfl

theorem quotedValue_append (hq : 0x22 ∉ v) (hb : 0x5c ∉ v) (rest : List Byte) :
    quotedValue (v ++ 0x22 :: rest) = (v, rest) := by
  induction v with
  | nil =>
    cases rest with
    | nil => rfl
    | cons d s => rfl
  | cons c v ih =>
    obtain ⟨hc, hq⟩ := not_or.mp (fun h => hq (List.mem_cons.mpr h))
    obtain ⟨hc', hb⟩ := not_or.mp (fun h => hb (List.mem_cons.mpr h))
    have ih := ih hq hb
    rw [List.cons_append]
    cases hv : v ++ 0x22 :: rest with
    | nil => exact absurd hv (List.append_ne_nil_of_right_ne_nil v (List.cons_ne_nil _ _))
    | cons d s =>
      rw [hv] at ih
      rw [quotedValue, if_neg (Ne.symm hc), if_neg (Ne.symm hc'), ih]

theorem takeWhile_bare (h : ∀ c ∈ v, isBreak c = false) (hr : Ends rest) :
    ((v ++ rest).takeWhile (!isBreak ·), (v ++ rest).dropWhile (!isBreak ·)) = (v, rest) := by
  have hv : ∀ c ∈ v, (!isBreak c) = true := fun c hc => by rw [h c hc]; rfl
  cases rest with
  | nil =>
    rw [List.append_nil, List.takeWhile_eq_self_iff.mpr hv, List.dropWhile_eq_nil_iff.mpr hv]
  | cons d s =>
    have hd : (!isBreak d) = false := by rw [hr d rfl]; rfl
    rw [List.takeWhile_append_of_pos hv, List.dropWhile_append_of_pos hv,
      List.takeWhile_cons_of_neg (by rw [hd]; exact Bool.false_ne_true),
      List.dropWhile_cons_of_neg (by rw [hd]; exact Bool.false_ne_true), List.append_nil]

/-- The value that is read. -/
theorem value_append (ha : a.Ok) (hr : Ends rest) :
    readValue (a.valueText ++ rest) = (a.value, rest) := by
  unfold Attr.valueText
  by_cases hq : a.quoted = true
  · obtain ⟨h1, h2⟩ := ha.quoted hq
    rw [if_pos hq, List.cons_append, List.append_assoc]
    exact quotedValue_append h1 h2 rest
  · obtain ⟨h1, h2⟩ := ha.bare (Bool.eq_false_iff.mpr hq)
    rw [if_neg hq, ← takeWhile_bare h2 hr]
    unfold readValue
    split
    · rename_i s hs
      cases hv : a.value with
      | nil =>
        rw [hv, List.nil_append] at hs
        rw [hs] at hr
        exact absurd (hr 0x22 rfl) (by decide)
      | cons c v =>
        rw [hv, List.cons_append] at hs
        obtain ⟨rfl, -⟩ := List.cons.inj hs
        rw [hv] at h1
        exact absurd List.mem_cons_self h1
    · rfl

/-- **One round** of `parseKeyValue`: `pre` are the blanks and commas in front. -/
theorem parseKeyValue_text (pre : List Byte) (hpre : ∀ c ∈ pre, isBreak c = true) (ha : a.Ok)
    (hr : Ends rest) (fuel : Nat) :
    parseKeyValue (fuel + 1) (pre ++ (a.text ++ rest)) =
      (a.name ++ [0x3d], a.value) :: parseKeyValue fuel rest := by
  have hkey : (pre ++ (a.text ++ rest)).dropWhile isBreak = a.name ++ 0x3d :: (a.valueText ++ rest) := by
    rw [List.dropWhile_append_of_pos hpre, Attr.text, List.append_assoc, List.cons_append]
    cases hn : a.name with
    | nil => rfl
    | cons c n =>
      have hc : isBreak c = false := (ha.name c (by rw [hn]; exact List.mem_cons_self)).1
      rw [List.cons_append, List.dropWhile_cons_of_neg (by rw [hc]; exact Bool.false_ne_true)]
  have hchr := strchr_append (fun h => (ha.name _ h).2 rfl) (a.valueText ++ rest)
  have hbefore : before (a.name ++ 0x3d :: (a.valueText ++ rest)) (0x3d :: (a.valueText ++ rest)) =
      a.name := by
    rw [before, List.length_append, Nat.add_sub_cancel, List.take_left]
  rw [parseKeyValue, hkey]
  dsimp only
  rw [hchr]
  dsimp only
  rw [hbefore, List.tail_cons]
  exact congrArg (fun r : List Byte × List Byte => (a.name ++ [0x3d], r.1) :: parseKeyValue fuel r.2)
    (value_append ha hr)

theorem parseKeyValue_moreAttrs (hok : ∀ a ∈ attrs, a.Ok) {fuel : Nat}
    (hfuel : attrs.length < fuel) :
    parseKeyValue fuel (moreAttrs attrs) = attrs.map fun a => (a.name ++ [0x3d], a.value) := by
  induction attrs generalizing fuel with
  | nil =>
    obtain ⟨fuel, rfl⟩ := Nat.exists_eq_add_one_of_ne_zero (Nat.ne_of_gt hfuel)
    rfl
  | cons a as ih =>
    obtain ⟨ha, has⟩ := List.forall_mem_cons.mp hok
    obtain ⟨fuel, rfl⟩ := Nat.exists_eq_add_one_of_ne_zero (n := fuel) (by omega)
    rw [List.length_cons] at hfuel
    have hround := parseKeyValue_text [0x2c] (by decide) ha (ends_moreAttrs as) fuel
    rw [ih has (by omega)] at hround
    exact hround

theorem length_le_moreAttrs (attrs : List Attr) : attrs.length ≤ (moreAttrs attrs).length := by
  induction attrs with
  | nil => exact Nat.le_refl 0
  | cons a as ih =>
    rw [moreAttrs, List.flatMap_cons, List.length_append, List.length_cons, List.length_cons]
    rw [moreAttrs] at ih
    omega

/-- The attributes of a line are read back. -/
theorem parseKeyValue_attrList (hok : ∀ a ∈ attrs, a.Ok) :
    parseKeyValue ((attrList attrs).length + 2) (attrList attrs) =
      attrs.map fun a => (a.name ++ [0x3d], a.value) := by
  cases attrs with
  | nil => rfl
  | cons a as =>
    obtain ⟨ha, has⟩ := List.forall_mem_cons.mp hok
    have hlen := length_le_moreAttrs as
    have hround := parseKeyValue_text [] (List.forall_mem_nil _) ha (ends_moreAttrs as)
      ((attrList (a :: as)).length + 1)
    rw [parseKeyValue_moreAttrs has (by rw [attrList, List.length_append]; omega)] at hround
    exact hround

end

/-! ## Fields -/

section
variable {attrs attrs' : List Attr} {type : MediaType} {groupId : List Byte}

theorem given_mem {name v : List Byte} (h : given attrs name = some v) :
    ∃ a ∈ attrs, a.name = name ∧ a.value = v := by
  obtain ⟨a, ha, hv⟩ := Option.map_eq_some_iff.mp h
  exact ⟨a, List.mem_of_find?_eq_some ha, by simpa using List.find?_some ha, hv⟩

/-- Where no name is there twice, an attribute is given by its name. -/
theorem given_of_mem (hd : (attrs.map (·.name)).Nodup) {a : Attr} (ha : a ∈ attrs) :
    given attrs a.name = some a.value := by
  unfold given
  cases h : attrs.find? fun b => b.name = a.name with
  | none => exact absurd (List.find?_eq_none.mp h a ha) (by simp)
  | some b =>
    have hname : b.name = a.name := by simpa using List.find?_some h
    rw [List.inj_on_of_nodup_map hd (List.mem_of_find?_eq_some h) ha hname]
    rfl

/-- The order of the attributes does not matter. -/
theorem given_perm (hd : (attrs.map (·.name)).Nodup) (hp : attrs'.Perm attrs) (name : List Byte) :
    given attrs' name = given attrs name := by
  have hd' : (attrs'.map (·.name)).Nodup := (hp.map _).nodup_iff.mpr hd
  cases h : given attrs name with
  | some v =>
    obtain ⟨a, ha, rfl, rfl⟩ := given_mem h
    exact given_of_mem hd' (hp.mem_iff.mpr ha)
  | none =>
    cases h' : given attrs' name with
    | none => rfl
    | some v =>
      obtain ⟨a, ha, rfl, rfl⟩ := given_mem h'
      rw [given_of_mem hd (hp.mem_iff.mp ha)] at h
      cases h

/-- A field holds what is given, as far as it fits. -/
theorem field_eq (hd : (attrs.map (·.name)).Nodup) (name : List Byte) (size : Nat) :
    field (attrs.map fun a => (a.name ++ [0x3d], a.value)) (name ++ [0x3d]) size =
      (given attrs name).map (·.take (size - 1)) := by
  have hperm := given_perm hd (List.reverse_perm attrs) name
  have hfind : (attrs.map fun a => (a.name ++ [0x3d], a.value)).reverse.find?
      (fun a => decide (a.1 = name ++ [0x3d])) =
        (attrs.reverse.find? fun a => decide (a.name = name)).map
          fun a => (a.name ++ [0x3d], a.value) := by
    rw [← List.map_reverse, List.find?_map]
    congr 2
    funext a
    simp
  unfold field
  rw [← hperm, given, hfind, Option.map_map, Option.map_map]
  rfl

theorem field_of_fits (hd : (attrs.map (·.name)).Nodup) {name : List Byte} {size : Nat}
    (h : ∀ v, given attrs name = some v → v.length < size) :
    field (attrs.map fun a => (a.name ++ [0x3d], a.value)) (name ++ [0x3d]) size =
      given attrs name := by
  rw [field_eq hd]
  cases hg : given attrs name with
  | none => rfl
  | some v =>
    have := h v hg
    rw [Option.map_some, List.take_of_length_le (by omega)]

/-- The last character of a text is not a blank. -/
def Solid (s : List Byte) : Prop := ∃ c ∈ s.getLast?, isspace c = false

theorem Solid.append {s : List Byte} (h : Solid s) (front : List Byte) : Solid (front ++ s) := by
  obtain ⟨c, hc, hs⟩ := h
  exact ⟨c, by rw [List.getLast?_append, hc]; rfl, hs⟩

theorem solid_text {a : Attr} (ha : a.Ok) : Solid a.text := by
  suffices h : Solid (0x3d :: a.valueText) from h.append a.name
  unfold Attr.valueText
  by_cases hq : a.quoted = true
  · rw [if_pos hq]
    exact Solid.append (s := [0x22]) ⟨0x22, rfl, rfl⟩ (0x3d :: 0x22 :: a.value)
  · rw [if_neg hq]
    cases hv : a.value.getLast? with
    | none =>
      rw [List.getLast?_eq_none_iff.mp hv]
      exact ⟨0x3d, rfl, rfl⟩
    | some c =>
      have hc := (ha.bare (Bool.eq_false_iff.mpr hq)).2 c (List.mem_of_getLast? hv)
      exact Solid.append (s := a.value) ⟨c, hv, (Bool.or_eq_false_iff.mp hc).1⟩ [0x3d]

theorem solid_moreAttrs (hok : ∀ a ∈ attrs, a.Ok) {front : List Byte} (h : Solid front) :
    Solid (front ++ moreAttrs attrs) := by
  induction attrs generalizing front with
  | nil => rwa [moreAttrs, List.flatMap_nil, List.append_nil]
  | cons a as ih =>
    obtain ⟨ha, has⟩ := List.forall_mem_cons.mp hok
    have hsplit : front ++ moreAttrs (a :: as) = (front ++ 0x2c :: a.text) ++ moreAttrs as := by
      rw [moreAttrs, List.flatMap_cons, List.append_assoc]
      rfl
    rw [hsplit]
    exact ih has (((solid_text ha).append [0x2c]).append front)

theorem solid_mediaLine (hok : ∀ a ∈ attrs, a.Ok) : Solid (mediaLine attrs) := by
  cases attrs with
  | nil => exact ⟨0x3a, rfl, rfl⟩
  | cons a as =>
    obtain ⟨ha, has⟩ := List.forall_mem_cons.mp hok
    rw [mediaLine, attrList, ← List.append_assoc]
    exact solid_moreAttrs has ((solid_text ha).append _)

/-- A line with attributes has nothing to cut at its ends. -/
theorem trim_mediaLine (hok : ∀ a ∈ attrs, a.Ok) : trim (mediaLine attrs) = mediaLine attrs := by
  obtain ⟨c, hc, hs⟩ := solid_mediaLine hok
  have hfirst : (mediaLine attrs).dropWhile isspace = mediaLine attrs := rfl
  have hrev : (mediaLine attrs).reverse.head? = some c := by rw [List.head?_reverse, hc]
  rw [trim, hfirst]
  cases hr : (mediaLine attrs).reverse with
  | nil =>
    rw [hr] at hrev
    cases hrev
  | cons d r =>
    rw [hr] at hrev
    cases hrev
    rw [List.dropWhile_cons_of_neg (by rw [hs]; exact Bool.false_ne_true), ← hr,
      List.reverse_reverse]

theorem attributes_mediaLine (hok : ∀ a ∈ attrs, a.Ok) :
    attributes (trim (mediaLine attrs)) =
      some (attrs.map fun a => (a.name ++ [0x3d], a.value)) := by
  have hcolon : strchr 0x3a (mediaLine attrs) = some (0x3a :: attrList attrs) := rfl
  rw [trim_mediaLine hok, attributes, hcolon, Option.map_some, List.length_cons, List.tail_cons,
    parseKeyValue_attrList hok]

end

/-! ## Items -/

/-- The item for a line: the flag `FORCED` is looked up under `DEFAULT`. -/
def itemOf (attrs : List Attr) (url : List Byte) : M3uMediaItem where
  name := (given attrs (bytes "NAME")).getD []
  mediaUrl := url
  language := (setField (given attrs (bytes "LANGUAGE"))).getD []
  flagAutoselect := isYes (given attrs (bytes "AUTOSELECT"))
  flagDefault := isYes (given attrs (bytes "DEFAULT"))
  flagForced := (setField (given attrs (bytes "FORCED"))).isSome &&
    isYes (given attrs (bytes "DEFAULT"))
  flagHasLanguage := (setField (given attrs (bytes "LANGUAGE"))).isSome
  flagHasUri := (setField (given attrs (bytes "URI"))).isSome

/-- An item is what the attributes of its line say. -/
structure M3uMediaItem.Says (env : ParseEnv) (item : M3uMediaItem) (attrs : List Attr) : Prop where
  name : item.name = (given attrs (bytes "NAME")).getD []
  language : item.language = (given attrs (bytes "LANGUAGE")).getD []
  uri : Hls.mediaUrl env (setField (given attrs (bytes "URI"))) = some item.mediaUrl
  autoselect : item.flagAutoselect = true ↔ given attrs (bytes "AUTOSELECT") = some (bytes "YES")
  dflt : item.flagDefault = true ↔ given attrs (bytes "DEFAULT") = some (bytes "YES")
  forced : item.flagForced = true ↔ given attrs (bytes "FORCED") = some (bytes "YES")

/-- **The item that is stored** under a type and a group is what the line says, and it is the same
in every order of the attributes. -/
def MediaFaithful (env : ParseEnv) (p : M3UParser) (attrs : List Attr) (type : MediaType)
    (groupId : List Byte) : Prop :=
  ∃ item : M3uMediaItem, item.Says env attrs ∧ ∀ attrs' : List Attr, attrs'.Perm attrs →
    parseMedia env p (mediaLine attrs') = some (some (p.addMediaItem type groupId item))

theorem makeUrl_of_lt {hostOf : List Byte → List Byte} {size : Nat} {buf base rel : List Byte}
    (h : rel.length < size) : ∃ url, makeUrl hostOf size buf base rel = some url := by
  have hcopy : strncpy size rel = some rel := if_pos h
  have hite : ∀ (c : Prop) [Decidable c] (x y : List Byte),
      ∃ url, (if c then some x else some y) = some url := by
    intro c _ x y
    split
    · exact ⟨x, rfl⟩
    · exact ⟨y, rfl⟩
  unfold makeUrl
  rw [hcopy]
  split
  · exact ⟨_, rfl⟩
  split
  · exact ⟨_, rfl⟩
  split
  · split
    · exact hite _ _ _
    · exact ⟨_, rfl⟩
  split
  · exact ⟨_, rfl⟩
  · exact hite _ _ _

section
variable {env : ParseEnv} {p : M3UParser} {attrs attrs' : List Attr} {type : MediaType}
  {groupId : List Byte}

theorem WellFormed.perm (h : WellFormed attrs type groupId) (hp : attrs'.Perm attrs) :
    WellFormed attrs' type groupId := by
  have hgiven : given attrs' = given attrs := funext (given_perm h.distinct hp)
  refine ⟨fun a ha => h.ok a (hp.mem_iff.mp ha), (hp.map _).nodup_iff.mpr h.distinct, ?_, ?_, ?_, ?_, ?_⟩
  · rw [hgiven]
    exact h.type
  · rw [hgiven]
    exact h.groupId
  · rw [hgiven]
    exact h.texts
  · rw [hgiven]
    exact h.uri
  · rw [hgiven]
    exact h.flags

theorem mediaTypeOf_typeNames {name : List Byte} (h : (name, type) ∈ typeNames) :
    mediaTypeOf name = some type ∧ name.length < 20 ∧ name ≠ [] := by
  have hall : ∀ t ∈ typeNames, mediaTypeOf t.1 = some t.2 ∧ t.1.length < 20 ∧ t.1 ≠ [] := by decide
  exact hall _ h

theorem isYes_iff {v : Option (List Byte)}
    (h : ∀ x, v = some x → x = bytes "YES" ∨ x = bytes "NO") :
    isYes v = true ↔ v = some (bytes "YES") := by
  cases v with
  | none => decide
  | some x =>
    rcases h x rfl with rfl | rfl
    · decide
    · decide

theorem setField_some {v : List Byte} (h : v ≠ []) : setField (some v) = some v :=
  Option.filter_some_pos (by simpa using h)

theorem setField_getD (v : Option (List Byte)) : (setField v).getD [] = v.getD [] := by
  cases v with
  | none => rfl
  | some x =>
    by_cases hx : x = []
    · rw [hx]
      rfl
    · rw [setField_some hx]

/-- The item of a line can be told from the groups. -/
theorem addMediaItem_inj {item item' : M3uMediaItem}
    (h : p.addMediaItem type groupId item = p.addMediaItem type groupId item') : item = item' := by
  have hmap := congrArg M3UParser.mediaGroupHead h
  unfold M3UParser.addMediaItem at hmap
  generalize hgroups : (if (p.getMediaGroupById type groupId).isSome then p.mediaGroupHead
    else ⟨type, groupId, -1, []⟩ :: p.mediaGroupHead) = groups at hmap
  obtain ⟨g, hg, hgt⟩ : ∃ g ∈ groups, g.type = type ∧ g.groupId = groupId := by
    rw [← hgroups]
    split
    · rename_i hsome
      obtain ⟨g, hfind⟩ := Option.isSome_iff_exists.mp hsome
      exact ⟨g, List.mem_of_find?_eq_some hfind, by simpa using List.find?_some hfind⟩
    · exact ⟨_, List.mem_cons_self, rfl, rfl⟩
  have heq := List.map_inj_left.mp hmap g hg
  rw [if_pos hgt, if_pos hgt] at heq
  exact (List.cons.inj (congrArg M3uMediaGroup.itemHead heq)).1

/-- **What `parseMedia` makes of a line** that is well formed. -/
theorem parseMedia_mediaLine (h : WellFormed attrs type groupId) {url : List Byte}
    (hurl : mediaUrl env (setField (given attrs (bytes "URI"))) = some url) :
    parseMedia env p (mediaLine attrs) =
      some (some (p.addMediaItem type groupId (itemOf attrs url))) := by
  obtain ⟨tname, htype, hnames⟩ := h.type
  obtain ⟨htypeOf, htlen, htne⟩ := mediaTypeOf_typeNames hnames
  obtain ⟨hgroup, hgne, hglen⟩ := h.groupId
  have hflag : ∀ name ∈ [bytes "AUTOSELECT", bytes "DEFAULT", bytes "FORCED"], ∀ v,
      given attrs name = some v → v.length < 8 := by
    intro name hname v hv
    rcases h.flags name hname v hv with rfl | rfl
    · decide
    · decide
  have hfield : ∀ name size, (∀ v, given attrs name = some v → v.length < size) →
      field (attrs.map fun a => (a.name ++ [0x3d], a.value)) (name ++ [0x3d]) size =
        given attrs name := fun name size => field_of_fits h.distinct
  unfold parseMedia
  rw [attributes_mediaLine h.ok]
  dsimp only
  rw [show bytes "LANGUAGE=" = bytes "LANGUAGE" ++ [0x3d] from rfl,
    show bytes "FORCED=" = bytes "FORCED" ++ [0x3d] from rfl,
    show bytes "DEFAULT=" = bytes "DEFAULT" ++ [0x3d] from rfl,
    show bytes "URI=" = bytes "URI" ++ [0x3d] from rfl,
    show bytes "NAME=" = bytes "NAME" ++ [0x3d] from rfl,
    show bytes "AUTOSELECT=" = bytes "AUTOSELECT" ++ [0x3d] from rfl,
    show bytes "TYPE=" = bytes "TYPE" ++ [0x3d] from rfl,
    show bytes "GROUP-ID=" = bytes "GROUP-ID" ++ [0x3d] from rfl,
    hfield _ 128 (h.texts (bytes "LANGUAGE") (by decide)), hfield _ 8 (hflag (bytes "FORCED") (by decide)),
    hfield _ 8 (hflag (bytes "DEFAULT") (by decide)), hfield _ 1024 h.uri,
    hfield _ 128 (h.texts (bytes "NAME") (by decide)),
    hfield _ 8 (hflag (bytes "AUTOSELECT") (by decide)),
    hfield (bytes "TYPE") 20 (fun v hv => by rw [htype] at hv; cases hv; exact htlen),
    hfield (bytes "GROUP-ID") 128 (fun v hv => by rw [hgroup] at hv; cases hv; exact hglen),
    htype, hgroup, setField_some htne, setField_some hgne, hurl]
  simp only [Option.bind_eq_bind, Option.bind_some, htypeOf]
  rfl

theorem exists_mediaUrl (h : WellFormed attrs type groupId) (env : ParseEnv) :
    ∃ url, mediaUrl env (setField (given attrs (bytes "URI"))) = some url := by
  cases huri : setField (given attrs (bytes "URI")) with
  | none => exact ⟨[], rfl⟩
  | some v =>
    have hlt := h.uri v (Option.filter_eq_some_iff.mp huri).1
    exact makeUrl_of_lt (Nat.lt_trans hlt (by decide))

/-- What the flag `FORCED` of an item is. -/
theorem flagForced_itemOf (h : WellFormed attrs type groupId) (url : List Byte) :
    (itemOf attrs url).flagForced = true ↔ given attrs (bytes "FORCED") ≠ none ∧
      given attrs (bytes "DEFAULT") = some (bytes "YES") := by
  rw [itemOf, Bool.and_eq_true, isYes_iff (h.flags (bytes "DEFAULT") (by decide))]
  refine and_congr_left fun _ => ?_
  cases hf : given attrs (bytes "FORCED") with
  | none => decide
  | some v =>
    have hne : v ≠ [] := by
      rcases h.flags (bytes "FORCED") (by decide) v hf with rfl | rfl
      · decide
      · decide
    rw [setField_some hne]
    exact iff_of_true rfl (Option.some_ne_none v)

theorem MediaFaithful.forced (h : WellFormed attrs type groupId)
    (hm : MediaFaithful env p attrs type groupId) :
    given attrs (bytes "FORCED") = none ∨ (given attrs (bytes "FORCED") = some (bytes "YES") ↔
      given attrs (bytes "DEFAULT") = some (bytes "YES")) := by
  obtain ⟨url, hurl⟩ := exists_mediaUrl h env
  obtain ⟨item, hsays, hparse⟩ := hm
  have hitem : itemOf attrs url = item := by
    have hline := hparse attrs (List.Perm.refl attrs)
    rw [parseMedia_mediaLine h hurl] at hline
    exact addMediaItem_inj (Option.some.inj (Option.some.inj hline))
  have hsaid := hsays.forced
  rw [← hitem, flagForced_itemOf h] at hsaid
  by_cases hf : given attrs (bytes "FORCED") = none
  · exact .inl hf
  · exact .inr (hsaid.symm.trans (and_iff_right hf))

theorem mediaFaithful_of_forced (h : WellFormed attrs type groupId)
    (hcond : given attrs (bytes "FORCED") = none ∨
      (given attrs (bytes "FORCED") = some (bytes "YES") ↔
        given attrs (bytes "DEFAULT") = some (bytes "YES"))) :
    MediaFaithful env p attrs type groupId := by
  obtain ⟨url, hurl⟩ := exists_mediaUrl h env
  refine ⟨itemOf attrs url, ⟨rfl, setField_getD _, hurl,
    isYes_iff (h.flags (bytes "AUTOSELECT") (by decide)),
    isYes_iff (h.flags (bytes "DEFAULT") (by decide)), ?_⟩, fun attrs' hp => ?_⟩
  · rw [flagForced_itemOf h]
    rcases hcond with hf | hiff
    · simp [hf]
    · rw [hiff]
      refine and_iff_right_of_imp fun hd hf => ?_
      rw [hf] at hiff
      exact absurd (hiff.mpr hd) (Option.some_ne_none _).symm
  · have hgiven : given attrs' = given attrs := funext (given_perm h.distinct hp)
    have hitem : itemOf attrs' url = itemOf attrs url := by
      unfold itemOf
      rw [hgiven]
    rw [← hitem]
    exact parseMedia_mediaLine (h.perm hp) (hgiven ▸ hurl)

/-- **`EXT-X-MEDIA` is taken as it is written**, exactly if `FORCED` is not there or says the same
as `DEFAULT`. -/
theorem mediaFaithful_iff (h : WellFormed attrs type groupId) :
    MediaFaithful env p attrs type groupId ↔
      (given attrs (bytes "FORCED") = none ∨ (given attrs (bytes "FORCED") = some (bytes "YES") ↔
        given attrs (bytes "DEFAULT") = some (bytes "YES"))) :=
  ⟨MediaFaithful.forced h, mediaFaithful_of_forced h⟩

end

/-- `TYPE=SUBTITLES,GROUP-ID="s",NAME="a, b",DEFAULT=...,FORCED=...`. -/
def subtitles (dflt forced : String) : List Attr :=
  [⟨bytes "TYPE", bytes "SUBTITLES", false⟩, ⟨bytes "GROUP-ID", bytes "s", true⟩,
    ⟨bytes "NAME", bytes "a, b", true⟩, ⟨bytes "DEFAULT", bytes dflt, false⟩,
    ⟨bytes "FORCED", bytes forced, false⟩]

theorem wellFormed_subtitles {dflt forced : String} (hd : dflt = "YES" ∨ dflt = "NO")
    (hf : forced = "YES" ∨ forced = "NO") : WellFormed (subtitles dflt forced) .subs (bytes "s") := by
  have hok : ∀ a ∈ subtitles dflt forced, a.Ok := by
    intro a ha
    simp only [subtitles, List.mem_cons, List.not_mem_nil, or_false] at ha
    rcases ha with rfl | rfl | rfl | rfl | rfl
    · exact ⟨by decide, by decide, by decide⟩
    · exact ⟨by decide, by decide, by decide⟩
    · exact ⟨by decide, by decide, by decide⟩
    · rcases hd with rfl | rfl <;> exact ⟨by decide, by decide, by decide⟩
    · rcases hf with rfl | rfl <;> exact ⟨by decide, by decide, by decide⟩
  rcases hd with rfl | rfl <;> rcases hf with rfl | rfl
  all_goals exact ⟨hok, by decide, ⟨bytes "SUBTITLES", rfl, by decide⟩, by decide, by decide,
    by decide, by decide⟩

/-- The parser of a master playlist. -/
def masterEnv : ParseEnv where
  baseUrl := bytes "http://h/master.m3u8"
  maxBaseNodeNum := 32768
  durationUs := fun _ => 10000000
  hostOf := fun _ => bytes "h"
  junk := []

theorem mediaFaithful_forcedDefault :
    MediaFaithful masterEnv M3UParser.empty (subtitles "YES" "YES") .subs (bytes "s") :=
  (mediaFaithful_iff (wellFormed_subtitles (.inl rfl) (.inl rfl))).mpr (by decide)

/-- **A default that is not forced** is stored as forced. -/
theorem mediaFaithful_notForced :
    WellFormed (subtitles "YES" "NO") .subs (bytes "s") ∧
      ¬ MediaFaithful masterEnv M3UParser.empty (subtitles "YES" "NO") .subs (bytes "s") := by
  have hwell := wellFormed_subtitles (.inl rfl) (.inr rfl)
  refine ⟨hwell, fun h => ?_⟩
  exact absurd (h.forced hwell) (by decide)

end VendorAmlogic.Hls
