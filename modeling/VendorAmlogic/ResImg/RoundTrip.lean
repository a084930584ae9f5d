import Mathlib.Tactic
import VendorAmlogic.ResImg.Unpack

/-!
# Resource images: packing and unpacking

An image is unpacked to the files that were packed, each under its stored name,
exactly if every file is `Faithful`: `roundTrip_iff`. The names are compared
with what `get_last_itemname` is for, `storedName`.
-/

namespace VendorAmlogic.ResImg

open VendorAmlogic.Lib

/-! ## Names -/

/-- A file name without `.bmp` at its end. -/
def storedName (fileName : List Byte) : List Byte :=
  if bmpTag <:+ fileName then fileName.take (fileName.length - bmpTag.length) else fileName

/-- `.bmp` is at the end, and once more before that. -/
def InnerBmp (fileName : List Byte) : Prop :=
  bmpTag <:+ fileName ∧ bmpTag <:+: storedName fileName

instance (fileName : List Byte) : Decidable (InnerBmp fileName) :=
  inferInstanceAs (Decidable (_ ∧ _))

/-- The first place is no later than any other one. -/
theorem strstr_append {pat : List Byte} (hpat : pat ≠ []) (a b : List Byte) :
    ∃ t, strstr pat (a ++ (pat ++ b)) = some t ∧ pat.length + b.length ≤ t.length := by
  have hpre : pat.isPrefixOf (pat ++ b) = true := List.isPrefixOf_iff_prefix.mpr (List.prefix_append _ _)
  induction a with
  | nil =>
    obtain ⟨c, p, rfl⟩ := List.exists_cons_of_ne_nil hpat
    refine ⟨(c :: p) ++ b, ?_, Nat.le_of_eq List.length_append.symm⟩
    rw [List.nil_append, List.cons_append, strstr, ← List.cons_append, if_pos hpre]
  | cons c a ih =>
    obtain ⟨t, ht, hle⟩ := ih
    rw [List.cons_append, strstr]
    split
    · refine ⟨_, rfl, ?_⟩
      simp only [List.length_cons, List.length_append]
      omega
    · exact ⟨t, ht, hle⟩

/-- `.bmp` does not overlap with itself. -/
theorem strstr_bmp {a : List Byte} (h : ¬ bmpTag <:+: a) : strstr bmpTag (a ++ bmpTag) = some bmpTag := by
  induction a with
  | nil => decide
  | cons c a ih =>
    rw [List.cons_append, strstr, if_neg, ih fun h' => h (h'.trans (List.suffix_cons c a).isInfix)]
    intro hpre
    have hpre := List.isPrefixOf_iff_prefix.mp hpre
    by_cases hlen : 4 ≤ (c :: a).length
    · have : bmpTag <+: c :: a := List.prefix_of_prefix_length_le
        hpre (List.prefix_append (c :: a) bmpTag) hlen
      exact h this.isInfix
    · match a, hlen with
      | [], _ => exact absurd (List.cons_prefix_cons.mp hpre).2 (by decide)
      | [x], _ =>
        have := (List.cons_prefix_cons.mp (List.cons_prefix_cons.mp hpre).2).2
        exact absurd this (by decide)
      | [x, y], _ =>
        have := (List.cons_prefix_cons.mp (List.cons_prefix_cons.mp
          (List.cons_prefix_cons.mp hpre).2).2).2
        exact absurd this (by decide)
      | x :: y :: z :: a, hlen => exact absurd (by simp) hlen

section
variable {n : List Byte}

theorem storedName_append (a : List Byte) : storedName (a ++ bmpTag) = a := by
  rw [storedName, if_pos (List.suffix_append a bmpTag), List.length_append, Nat.add_sub_cancel,
    List.take_left]

/-- The name that the code takes is the stored one, but where `.bmp` is twice in it. -/
theorem getLastItemname_eq (h : ¬ InnerBmp n) : getLastItemname n = storedName n := by
  by_cases hs : bmpTag <:+ n
  · obtain ⟨a, rfl⟩ := hs
    have ha : ¬ bmpTag <:+: a := fun hi =>
      h ⟨List.suffix_append a bmpTag, by rwa [storedName_append]⟩
    rw [storedName_append, getLastItemname, strstr_bmp ha]
    dsimp only
    rw [if_pos rfl, List.length_append, Nat.add_sub_cancel, List.take_left]
  · rw [storedName, if_neg hs, getLastItemname]
    split
    · rename_i t ht
      rw [if_neg]
      rintro rfl
      exact hs (strstr_suffix ht)
    · rfl

theorem getLastItemname_inner (h : InnerBmp n) : getLastItemname n = n := by
  obtain ⟨⟨x, rfl⟩, hi⟩ := h
  rw [storedName_append] at hi
  obtain ⟨a, b, rfl⟩ := hi
  obtain ⟨t, ht, hle⟩ := strstr_append (show bmpTag ≠ [] by decide) a (b ++ bmpTag)
  rw [List.append_assoc, List.append_assoc, getLastItemname, ht]
  dsimp only
  rw [if_neg]
  rintro rfl
  rw [List.length_append] at hle
  have : bmpTag.length = 4 := rfl
  omega

/-- A name that is stored as one with `.bmp` at its end has it once more. -/
theorem inner_of_storedName {m : List Byte} (hm : bmpTag <:+ m) (h : storedName n = m) :
    n = m ++ bmpTag ∧ InnerBmp n := by
  by_cases hs : bmpTag <:+ n
  · obtain ⟨a, rfl⟩ := hs
    rw [storedName_append] at h
    subst h
    exact ⟨rfl, List.suffix_append _ _, by rw [storedName_append]; exact hm.isInfix⟩
  · rw [storedName, if_neg hs] at h
    exact absurd (h ▸ hm) hs

end

/-! ## The files -/

section
variable {files : List SrcFile} {dir : List Byte}

/-- The name of a file without `.bmp` at its end. -/
def SrcFile.stored (f : SrcFile) : List Byte := storedName (getFilename f.path)

/-- Files that may be packed together. -/
structure Input (files : List SrcFile) : Prop extends Packable files where
  distinct : (files.map SrcFile.stored).Nodup
  short : ∀ f ∈ files, f.stored.length ≤ ihNmlen - 1

/-- The image is unpacked to an empty directory, with the CRC checked: there is then a file
for each one that was packed, with its stored name and its contents, and no other one. -/
def RoundTrip (files : List SrcFile) (dir : List Byte) : Prop :=
  ∃ ret image d, imgPack files = some (ret, image) ∧
    resImgUnpack Creatable image dir true (fun _ => none) = some (0, d) ∧
    ∀ name, d name = (files.find? fun f => f.stored == name).map SrcFile.data

/-- A file that is not changed: its path and its name fit, `.bmp` is not twice at issue in the
name, the stored name can be given to a file, and the size is not a multiple of the buffer. -/
structure Faithful (dir : List Byte) (f : SrcFile) : Prop where
  named : Named f
  inner : ¬ InnerBmp (getFilename f.path)
  room : dir.length + 1 + f.stored.length < maxPath * 2
  creatable : Creatable f.stored
  size : ¬ (f.data.length % itemReadBufSz = 0 ∧ f.data.length ≠ 0)

theorem lastItemname_eq {f : SrcFile} (h : ¬ InnerBmp (getFilename f.path)) :
    lastItemname f = f.stored := getLastItemname_eq h

/-- What is in the directory are the items. -/
theorem putItem_ne_none {fs : List SrcFile} {d : Dir} {name : List Byte} :
    fs.foldl putItem d name ≠ none ↔ d name ≠ none ∨ ∃ f ∈ fs, lastItemname f = name := by
  induction fs generalizing d with
  | nil => simp
  | cons f fs ih =>
    rw [List.foldl_cons, ih]
    by_cases h : name = lastItemname f
    · subst h
      simp [putItem]
    · simp [putItem, h, Ne.symm h]

/-- An item whose name no later one has. -/
theorem putItem_of_nodup {fs : List SrcFile} {d : Dir} (hd : (fs.map lastItemname).Nodup)
    (name : List Byte) :
    fs.foldl putItem d name =
      ((fs.find? fun f => lastItemname f == name).map
        fun f => f.data.take (keptSz f.data.length)).or (d name) := by
  induction fs generalizing d with
  | nil => rfl
  | cons f fs ih =>
    obtain ⟨hf, hfs⟩ := List.nodup_cons.mp hd
    rw [List.foldl_cons, ih hfs, List.find?_cons]
    by_cases h : lastItemname f = name
    · subst h
      have hnone : fs.find? (fun g => lastItemname g == lastItemname f) = none := by
        rw [List.find?_eq_none]
        intro g hg heq
        exact hf (List.mem_map.mpr ⟨g, hg, by simpa using heq⟩)
      simp [hnone, putItem]
    · rw [beq_eq_false_iff_ne.mpr h, putItem, Function.update_of_ne (Ne.symm h)]

/-- The directory, where the names are the stored ones. -/
theorem unpacked_eq (hp : Input files) (hi : ∀ f ∈ files, ¬ InnerBmp (getFilename f.path))
    (name : List Byte) :
    files.foldl putItem (fun _ => none) name =
      (files.find? fun f => f.stored == name).map fun f => f.data.take (keptSz f.data.length) := by
  have hnames : files.map lastItemname = files.map SrcFile.stored :=
    List.map_congr_left fun f hf => lastItemname_eq (hi f hf)
  rw [putItem_of_nodup (hnames ▸ hp.distinct), Option.or_none]
  congr 1
  refine List.find?_congr fun f hf => ?_
  rw [lastItemname_eq (hi f hf)]

theorem find?_stored (hp : Input files) {f : SrcFile} (hf : f ∈ files) :
    files.find? (fun g => g.stored == f.stored) = some f := by
  cases h : files.find? (fun g => g.stored == f.stored) with
  | none => exact absurd (List.find?_eq_none.mp h f hf) (by simp)
  | some g =>
    have heq : g.stored = f.stored := by simpa using List.find?_some h
    rw [List.inj_on_of_nodup_map hp.distinct (List.mem_of_find?_eq_some h) hf heq]

/-- Where the names are the stored ones, no name has `.bmp` twice: each such name would be that
of a longer one. -/
theorem inner_absurd (hn : ∀ f ∈ files, Named f)
    (hex : ∀ f ∈ files, ∃ g ∈ files, g.stored = lastItemname f) :
    ∀ f ∈ files, ¬ InnerBmp (getFilename f.path) := by
  intro f hf hi
  have hlong : ∀ k, ∃ g ∈ files, InnerBmp (getFilename g.path) ∧ k ≤ (getFilename g.path).length := by
    intro k
    induction k with
    | zero => exact ⟨f, hf, hi, Nat.zero_le _⟩
    | succ k ih =>
      obtain ⟨g, hg, hgi, hk⟩ := ih
      obtain ⟨g', hg', heq⟩ := hex g hg
      rw [lastItemname, getLastItemname_inner hgi] at heq
      obtain ⟨hname, hi'⟩ := inner_of_storedName hgi.1 heq
      refine ⟨g', hg', hi', ?_⟩
      rw [hname, List.length_append]
      have : bmpTag.length = 4 := rfl
      omega
  obtain ⟨g, hg, -, hk⟩ := hlong ihNmlen
  have := (hn g hg).2
  unfold ihNmlen at *
  omega

theorem RoundTrip.named (hp : Packable files) (h : RoundTrip files dir) : ∀ f ∈ files, Named f := by
  obtain ⟨ret, image, d, hpack, hunpack, -⟩ := h
  by_contra hnot
  obtain ⟨f, hf⟩ := not_forall.mp hnot
  obtain ⟨hmem, hf⟩ := Classical.not_imp.mp hf
  obtain ⟨rest, rfl⟩ := imgPack_unnamed hp ⟨f, hmem, hf⟩ hpack
  obtain ⟨e, he⟩ := check_zeros rest true
    (show imgHeadSz ≤ imgHeadSz + itemHeadSz * files.length from Nat.le_add_right _ _)
  rw [resImgUnpack, he] at hunpack
  cases hunpack

theorem RoundTrip.faithful (hp : Input files) (h : RoundTrip files dir) :
    ∀ f ∈ files, Faithful dir f := by
  have hn := h.named hp.toPackable
  obtain ⟨ret, image, d, hpack, hunpack, hd⟩ := h
  rw [imgPack_named hp.toPackable hn] at hpack
  cases hpack
  rcases unpack_image dir true (fun _ => none) hp.toPackable hn with ⟨hpl, hres⟩ | ⟨-, hres⟩
  · rw [hres] at hunpack
    cases hunpack
    have hinner : ∀ f ∈ files, ¬ InnerBmp (getFilename f.path) := by
      refine inner_absurd hn fun f hf => ?_
      have hne : files.foldl putItem (fun _ => none) (lastItemname f) ≠ none :=
        putItem_ne_none.mpr (.inr ⟨f, hf, rfl⟩)
      rw [hd, ne_eq, Option.map_eq_none_iff, List.find?_eq_none, not_forall] at hne
      obtain ⟨g, hg⟩ := hne
      obtain ⟨hmem, hg⟩ := Classical.not_imp.mp hg
      exact ⟨g, hmem, by simpa using hg⟩
    intro f hf
    have hname := lastItemname_eq (hinner f hf)
    refine ⟨hn f hf, hinner f hf, hname ▸ (hpl f hf).1, hname ▸ (hpl f hf).2, keptSz_eq_self.mp ?_⟩
    have hdata := hd f.stored
    rw [unpacked_eq hp hinner, find?_stored hp hf, Option.map_some, Option.map_some,
      Option.some_inj] at hdata
    have hlen := congrArg List.length hdata
    rw [List.length_take, Nat.min_eq_left (keptSz_le _)] at hlen
    exact hlen
  · exact absurd rfl (hres 0 d hunpack)

theorem roundTrip_of_faithful (hp : Input files) (h : ∀ f ∈ files, Faithful dir f) :
    RoundTrip files dir := by
  have hn : ∀ f ∈ files, Named f := fun f hf => (h f hf).named
  have hpl : ∀ f ∈ files, Placed dir f := fun f hf => by
    rw [Placed, lastItemname_eq (h f hf).inner]
    exact ⟨(h f hf).room, (h f hf).creatable⟩
  rcases unpack_image dir true (fun _ => none) hp.toPackable hn with ⟨-, hres⟩ | ⟨⟨f, hf, hnot⟩, -⟩
  · refine ⟨0, some (image files), _, imgPack_named hp.toPackable hn, hres, fun name => ?_⟩
    rw [unpacked_eq hp fun f hf => (h f hf).inner]
    cases hfind : files.find? (fun f => f.stored == name) with
    | none => rfl
    | some f =>
      have hf := h f (List.mem_of_find?_eq_some hfind)
      rw [Option.map_some, Option.map_some, keptSz_eq_self.mpr hf.size, List.take_length]
  · exact absurd (hpl f hf) hnot

end

/-- **When a resource image gives the files back**. -/
theorem roundTrip_iff {files : List SrcFile} {dir : List Byte} (hp : Input files) :
    RoundTrip files dir ↔ ∀ f ∈ files, Faithful dir f :=
  ⟨fun h => h.faithful hp, roundTrip_of_faithful hp⟩

/-- A file in the current directory. -/
def namedFile (c : Byte) (hc : c ≠ 0) (data : List Byte) : SrcFile :=
  ⟨[c], fun h => hc (List.mem_singleton.mp h).symm, data⟩

/-- Two files of 20 and no bytes. -/
theorem roundTrip_twoFiles :
    RoundTrip [namedFile 0x61 (by decide) (List.replicate 20 1), namedFile 0x62 (by decide) []]
      (bytes "out") := by
  refine (roundTrip_iff ⟨⟨List.cons_ne_nil _ _, by decide, by decide⟩, by decide, by decide⟩).2 ?_
  intro f hf
  rcases List.mem_pair.mp hf with rfl | rfl
  · exact ⟨by decide, by decide, by decide, by decide, by decide⟩
  · exact ⟨by decide, by decide, by decide, by decide, by decide⟩

theorem not_roundTrip_of_length {data : List Byte} (hlen : data.length = 65536) :
    Input [namedFile 0x61 (by decide) data] ∧
      ¬ RoundTrip [namedFile 0x61 (by decide) data] (bytes "out") := by
  have hp : Input [namedFile 0x61 (by decide) data] := by
    refine ⟨⟨List.cons_ne_nil _ _, show 64 + 64 * 1 ≤ itemReadBufSz by decide, ?_⟩,
      List.nodup_singleton _, List.forall_mem_singleton.2 ?_⟩
    · rw [packedSz, List.flatMap_singleton, length_body, namedFile, hlen, List.length_singleton]
      decide
    · exact show (storedName (getFilename [0x61])).length ≤ ihNmlen - 1 by decide
  refine ⟨hp, fun h => ?_⟩
  have hsize := (h.faithful hp _ List.mem_cons_self).size
  rw [namedFile, hlen] at hsize
  exact hsize (by decide)

/-- **A file as long as the buffer** comes back without its last sixteen bytes. -/
theorem roundTrip_fullBuffer :
    Input [namedFile 0x61 (by decide) (List.replicate 65536 0)] ∧
      ¬ RoundTrip [namedFile 0x61 (by decide) (List.replicate 65536 0)] (bytes "out") :=
  not_roundTrip_of_length List.length_replicate

end VendorAmlogic.ResImg
