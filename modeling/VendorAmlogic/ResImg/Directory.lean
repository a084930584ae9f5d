import VendorAmlogic.ResImg.RoundTrip

/-!
# Resource images of a directory

`_img_pack` of `logo_img_packer/res_pack.cpp` in directory mode. Its files are
counted without the hidden ones, and then taken in the order of the directory
with them.
-/

namespace VendorAmlogic.ResImg

open VendorAmlogic.Lib

/-! ## The source -/

/-- A string of C. -/
abbrev CStr := { s : List Byte // 0 ∉ s }

/-- What `readdir` gives, with the contents where it is a file. -/
structure Entry where
  name : CStr
  data : List Byte

/-- The directory itself or the one above it. -/
def Entry.DotDir (de : Entry) : Prop := de.name.1 = bytes "." ∨ de.name.1 = bytes ".."

instance (de : Entry) : Decidable de.DotDir := inferInstanceAs (Decidable (_ ∨ _))

/-- The name has a dot at its start. -/
def Entry.Hidden (de : Entry) : Prop := de.name.1.head? = some 0x2e

instance (de : Entry) : Decidable de.Hidden := inferInstanceAs (Decidable (_ = _))

/-- `get_dir_filenums`. -/
def getDirFilenums : List Entry → Nat
  | [] => 0
  | de :: entries =>
    if de.DotDir then getDirFilenums entries
    else if de.Hidden then getDirFilenums entries
    else getDirFilenums entries + 1

/-- The file of an entry, with its path. -/
def srcFile (dirPath : CStr) (de : Entry) : SrcFile where
  path := dirPath.1 ++ 0x2f :: de.name.1
  path_nul h := (List.mem_append.mp h).elim dirPath.2 fun h =>
    (List.mem_cons.mp h).elim (by decide) de.name.2
  data := de.data

/-- `traverse_dir`: the next file, and the entries after it. -/
def traverseDir (dirPath : CStr) : List Entry → Option (SrcFile × List Entry)
  | [] => none
  | de :: entries =>
    if de.DotDir then traverseDir dirPath entries else some (srcFile dirPath de, entries)

/-- The files that the loop of `_img_pack` gets. -/
def getFiles (dirPath : CStr) : Nat → List Entry → List SrcFile
  | 0, _ => []
  | n + 1, entries =>
    match traverseDir dirPath entries with
    | some (f, entries) => f :: getFiles dirPath n entries
    | none => []

/-- `_img_pack` in directory mode, `res_img_pack`. -/
def imgPackDir (dirPath : CStr) (entries : List Entry) : Option (Int × Option (List Byte)) :=
  packFiles (getDirFilenums entries) (getFiles dirPath (getDirFilenums entries) entries)

/-! ## The two walks -/

/-- The files that are not hidden. -/
def visible (dirPath : CStr) (entries : List Entry) : List SrcFile :=
  (entries.filter fun de => ¬ de.Hidden).map (srcFile dirPath)

/-- The files that are packed. -/
def packed (dirPath : CStr) (entries : List Entry) : List SrcFile :=
  getFiles dirPath (getDirFilenums entries) entries

theorem Entry.DotDir.hidden {de : Entry} (h : de.DotDir) : de.Hidden := by
  rcases h with h | h
  · rw [Entry.Hidden, h]
    rfl
  · rw [Entry.Hidden, h]
    rfl

theorem getDirFilenums_eq (dirPath : CStr) (entries : List Entry) :
    getDirFilenums entries = (visible dirPath entries).length := by
  induction entries with
  | nil => rfl
  | cons de entries ih =>
    rw [getDirFilenums, visible, List.filter_cons]
    by_cases hdot : de.DotDir
    · rw [if_pos hdot, if_neg (by simpa using hdot.hidden)]
      exact ih
    · rw [if_neg hdot]
      by_cases hhid : de.Hidden
      · rw [if_pos hhid, if_neg (by simpa using hhid)]
        exact ih
      · rw [if_neg hhid, if_pos (by simpa using hhid), List.map_cons, List.length_cons, ih]
        rfl

theorem length_getFiles {dirPath : CStr} {n : Nat} {entries : List Entry}
    (h : n ≤ getDirFilenums entries) : (getFiles dirPath n entries).length = n := by
  induction entries generalizing n with
  | nil =>
    obtain rfl : n = 0 := Nat.le_zero.mp h
    rfl
  | cons de entries ih =>
    cases n with
    | zero => rfl
    | succ n =>
      rw [getDirFilenums] at h
      rw [getFiles, traverseDir]
      by_cases hdot : de.DotDir
      · rw [if_pos hdot] at h ⊢
        exact ih h
      · rw [if_neg hdot] at h ⊢
        refine congrArg Nat.succ (ih ?_)
        split at h
        · omega
        · omega

theorem length_packed (dirPath : CStr) (entries : List Entry) :
    (packed dirPath entries).length = getDirFilenums entries :=
  length_getFiles (Nat.le_refl _)

/-! ## What an image has -/

/-- The heads that the `next` links lead to from an offset, if they are item heads to the end. -/
def links (im : List Byte) : Nat → Nat → Option (List AmlResItemHead)
  | 0, _ => none
  | fuel + 1, o =>
    if o + itemHeadSz ≤ im.length ∧ (AmlResItemHead.ofBytes (im.drop o)).magic = ihMagic then
      let head := AmlResItemHead.ofBytes (im.drop o)
      if head.next = 0 then some [head] else (links im fuel head.next).map (head :: ·)
    else none

theorem links_unique {im : List Byte} {fuel fuel' o : Nat} {hs hs' : List AmlResItemHead}
    (h : links im fuel o = some hs) (h' : links im fuel' o = some hs') : hs = hs' := by
  induction fuel generalizing fuel' o hs hs' with
  | zero => cases h
  | succ fuel ih =>
    cases fuel' with
    | zero => cases h'
    | succ fuel' =>
      rw [links] at h h'
      split at h
      · rename_i hhead
        rw [if_pos hhead] at h'
        dsimp only at h h'
        split at h
        · rename_i hend
          rw [if_pos hend] at h'
          exact Option.some.inj (h.symm.trans h')
        · rename_i hnext
          rw [if_neg hnext] at h'
          obtain ⟨rest, hrest, rfl⟩ := Option.map_eq_some_iff.mp h
          obtain ⟨rest', hrest', rfl⟩ := Option.map_eq_some_iff.mp h'
          rw [ih hrest hrest']
      · cases h

/-- The item of a head: its name and the bytes of its body. -/
def itemOf (im : List Byte) (head : AmlResItemHead) : Option (List Byte) × List Byte :=
  (cString head.name, (im.drop head.start).take head.size)

section
variable {im rest : List Byte} {total : Nat}

theorem links_finalHeads {fs : List SrcFile} {i sz : Nat} (hne : fs ≠ [])
    (hfit : ∀ h ∈ finalHeads total fs i sz, h.Fits)
    (hbytes : im.drop (imgHeadSz + itemHeadSz * i) =
      (finalHeads total fs i sz).flatMap AmlResItemHead.toBytes ++ rest) :
    links im fs.length (imgHeadSz + itemHeadSz * i) = some (finalHeads total fs i sz) := by
  induction fs generalizing i sz with
  | nil => exact absurd rfl hne
  | cons f fs ih =>
    have hhead := hfit _ List.mem_cons_self
    have hlen := congrArg List.length hbytes
    rw [finalHeads, List.flatMap_cons, List.append_assoc] at hbytes hlen
    rw [List.length_drop, List.length_append, hhead.length_toBytes] at hlen
    have hroom : imgHeadSz + itemHeadSz * i + itemHeadSz ≤ im.length := by
      unfold itemHeadSz at *
      omega
    rw [List.length_cons, links, hbytes, hhead.ofBytes_toBytes, if_pos ⟨hroom, rfl⟩]
    dsimp only
    by_cases hnil : fs = []
    · rw [if_pos (if_pos hnil), finalHeads, hnil]
      rfl
    · have hrest : im.drop (imgHeadSz + itemHeadSz * (i + 1)) =
          (finalHeads total fs (i + 1) (sz + (body f).length)).flatMap AmlResItemHead.toBytes ++
            rest := by
        rw [Nat.mul_succ, ← Nat.add_assoc, ← List.drop_drop, hbytes,
          List.drop_left' hhead.length_toBytes]
      have hnext := ih hnil (fun h hh => hfit h (List.mem_cons_of_mem _ hh)) hrest
      rw [if_neg hnil, if_neg (by unfold imgHeadSz; omega), hnext, finalHeads, if_neg hnil]
      rfl

variable (total) in
/-- Each head in the image is that of a file: its name, its body, and where it ends. -/
theorem finalHeads_items {fs : List SrcFile} {i sz : Nat} (hn : ∀ f ∈ fs, Named f)
    (hsz : (fs.flatMap body).length < 2 ^ 32) (hbytes : im.drop sz = fs.flatMap body ++ rest) :
    (finalHeads total fs i sz).map (itemOf im) = fs.map (fun f => (some (lastItemname f), f.data)) ∧
      ∀ head ∈ finalHeads total fs i sz,
        head.start + head.size ≤ sz + (fs.flatMap body).length := by
  induction fs generalizing i sz with
  | nil => exact ⟨rfl, fun head hh => (List.not_mem_nil hh).elim⟩
  | cons f fs ih =>
    obtain ⟨hf, hfs⟩ := List.forall_mem_cons.1 hn
    have hlen := length_body f
    rw [List.flatMap_cons, List.append_assoc] at hbytes
    rw [List.flatMap_cons, List.length_append] at hsz
    have hrest : im.drop (sz + (body f).length) = fs.flatMap body ++ rest := by
      rw [← List.drop_drop, hbytes, List.drop_left]
    obtain ⟨hitems, hstarts⟩ := ih (i := i + 1) hfs (by omega) hrest
    have hsize : u32 f.data.length = f.data.length := u32_natCast (by omega)
    have hname : cString (lastItemname f ++ List.replicate (ihNmlen - (lastItemname f).length) 0) =
        some (lastItemname f) := cString_eq (lastItemname_nul f) hf.length_lastItemname
    have hbody : (im.drop sz).take f.data.length = f.data := by
      rw [hbytes, body, List.append_assoc, List.take_left]
    refine ⟨?_, ?_⟩
    · rw [finalHeads, List.map_cons, List.map_cons, hitems]
      refine congrArg (· :: _) (Prod.ext hname ?_)
      show (im.drop sz).take (u32 f.data.length) = f.data
      rw [hsize, hbody]
    · rw [finalHeads, List.flatMap_cons, List.length_append]
      refine List.forall_mem_cons.2 ⟨?_, fun head hh => ?_⟩
      · show sz + u32 f.data.length ≤ _
        omega
      · have := hstarts head hh
        omega

end

/-! ## What packing needs -/

/-- How long a file is in the image, also one that is too long for its head. -/
def writtenLen (f : SrcFile) : Nat :=
  f.data.length + u32 (occupySz f.data.length - f.data.length)

theorem packLoop_success {total i : Nat} {fs : List SrcFile} {st st' : PackState}
    (h : packLoop total fs i st = some (0, st')) (hend : st.dest.AtEnd) :
    (∀ f ∈ fs, Named f) ∧
      (fs ≠ [] → imgHeadSz + itemHeadSz * (i + fs.length) ≤ itemReadBufSz) ∧
      st.dest.data.length + (fs.map writtenLen).sum ≤ st'.dest.data.length := by
  induction fs generalizing i st with
  | nil =>
    cases h
    exact ⟨List.forall_mem_nil _, fun hne => absurd rfl hne, Nat.le_refl _⟩
  | cons f fs ih =>
    rw [packLoop] at h
    split at h
    · rename_i hpath
      dsimp only at h
      split at h
      · cases h
      · rename_i hname
        have hcopy := forChunks_append (B := itemReadBufSz) (f := Stream.fwrite) Stream.AtEnd
          (by decide) (d := f.data) rfl (fun _ => Stream.fwrite_nil)
          (fun _ _ _ => Stream.fwrite_append) ⟨f.data, 0⟩ st.dest (Nat.lt_succ_self _)
          (List.append_nil f.data).symm hend
        rw [hcopy] at h
        dsimp only at h
        rw [if_pos rfl] at h
        obtain ⟨hall, hroom, hlen⟩ := ih h hend.fwrite.fwrite
        refine ⟨List.forall_mem_cons.2 ⟨⟨hpath.1, Nat.not_lt.mp hname⟩, hall⟩, fun _ => ?_, ?_⟩
        · cases fs with
          | nil => exact hpath.2
          | cons g fs =>
            have := hroom (List.cons_ne_nil _ _)
            rw [List.length_cons]
            unfold itemHeadSz at *
            omega
        · rw [Stream.fwrite_append hend, Stream.fwrite_atEnd hend, List.length_append,
            List.length_append, List.length_replicate] at hlen
          rw [List.map_cons, List.sum_cons, writtenLen]
          omega
    · cases h

/-- What a file needs in an image below 4 GiB. -/
theorem writtenLen_eq {f : SrcFile} (h : writtenLen f < 2 ^ 32) : writtenLen f = (body f).length := by
  have hlen := length_body f
  have hlong : f.data.length < 2 ^ 32 := Nat.lt_of_le_of_lt (Nat.le_add_right _ _) h
  unfold writtenLen at h ⊢
  by_cases hsize : f.data.length < 0xFFFFFFF0
  · rw [occupySz_eq (by omega), u32_sub (by omega) (by omega), hlen]
    omega
  · exfalso
    rw [occupySz, land_align hlong, show f.data.length / 16 * 16 = 0xFFFFFFF0 by omega] at h
    unfold u32 amlResImgItemAlignSz at h
    omega

theorem packEnd_length {total : Nat} {st : PackState} {im : List Byte}
    (h : packEnd total st = some im) : st.dest.data.length ≤ im.length := by
  simp only [packEnd, Option.bind_eq_bind] at h
  obtain ⟨crc, -, him⟩ := Option.bind_eq_some_iff.mp h
  rw [← Option.some.inj him]
  generalize (AmlResImgHead.toBytes _ ++ _ : List Byte) = heads
  exact (Stream.le_length_fwrite (st.dest.fseek 0) heads).trans
    (Stream.le_length_fwrite (((st.dest.fseek 0).fwrite heads).fseek 0) _)

theorem packFiles_success {files : List SrcFile} {im : List Byte} (hne : files ≠ [])
    (h : packFiles files.length files = some (0, some im)) :
    (∀ f ∈ files, Named f) ∧ imgHeadSz + itemHeadSz * files.length ≤ itemReadBufSz ∧
      imgHeadSz + itemHeadSz * files.length + (files.map writtenLen).sum ≤ im.length := by
  rw [packFiles] at h
  dsimp only at h
  split at h
  · cases h
  · obtain ⟨⟨ret, st⟩, hloop, hrest⟩ := Option.bind_eq_some_iff.mp h
    dsimp only at hrest
    split at hrest
    · rename_i hret
      cases hrest
      exact absurd rfl hret
    · rename_i hret
      obtain rfl := not_not.mp hret
      obtain ⟨im', him, heq⟩ := Option.bind_eq_some_iff.mp hrest
      cases heq
      have hstart : (Stream.fwrite ⟨[], 0⟩ (List.replicate
          (u32 (imgHeadSz + itemHeadSz * files.length)) 0)).AtEnd := Stream.AtEnd.fwrite rfl
      obtain ⟨hnamed, hroom, hdata⟩ := packLoop_success hloop hstart
      have hhead : imgHeadSz + itemHeadSz * files.length ≤ itemReadBufSz := by
        simpa using hroom hne
      have hheadLen : u32 (imgHeadSz + itemHeadSz * files.length) =
          imgHeadSz + itemHeadSz * files.length := by
        exact_mod_cast u32_natCast (Nat.lt_of_le_of_lt hhead (by decide))
      rw [Stream.fwrite_atEnd (show Stream.AtEnd ⟨[], 0⟩ from rfl), List.nil_append,
        List.length_replicate, hheadLen] at hdata
      exact ⟨hnamed, hhead, hdata.trans (packEnd_length him)⟩

/-- An image below 4 GiB is as long as its head says. -/
theorem packedSz_lt {files : List SrcFile} {im : List Byte} (hne : files ≠ [])
    (h : packFiles files.length files = some (0, some im)) (hlen : im.length < 2 ^ 32) :
    packedSz files < 2 ^ 32 := by
  obtain ⟨-, -, hsum⟩ := packFiles_success hne h
  have hbodies : (files.map writtenLen).sum = (files.flatMap body).length := by
    rw [List.length_flatMap]
    refine congrArg List.sum (List.map_congr_left fun f hf => writtenLen_eq ?_)
    have := List.le_sum_of_mem (List.mem_map_of_mem (f := writtenLen) hf)
    omega
  rw [packedSz, ← hbodies]
  omega

theorem packFiles_image {files : List SrcFile} {im : List Byte} (hne : files ≠ [])
    (h : packFiles files.length files = some (0, some im)) (htotal : packedSz files < 2 ^ 32) :
    Packable files ∧ (∀ f ∈ files, Named f) ∧ im = image files := by
  obtain ⟨hnamed, hhead, -⟩ := packFiles_success hne h
  have hp : Packable files := ⟨hne, hhead, htotal⟩
  have himage := imgPack_named hp hnamed
  rw [imgPack, if_neg hne, h] at himage
  refine ⟨hp, hnamed, ?_⟩
  cases himage
  rfl

/-! ## What is to come of a directory -/

/-- There is one file for each of these, with its stored name and its contents, and no other one. -/
def Returns (files : List SrcFile) (d : Dir) : Prop :=
  (files.map SrcFile.stored).Nodup ∧
    ∀ name, d name = (files.find? fun f => f.stored == name).map SrcFile.data

/-- An image of some files: as many heads as the image head says, one item for each file, bodies
and all inside the size that the image head gives; and it is unpacked to the files. -/
structure DirImage (files : List SrcFile) (out im : List Byte) : Prop where
  items : ∃ fuel heads, links im fuel imgHeadSz = some heads ∧
    (AmlResImgHead.ofBytes im).imgItemNum = heads.length ∧
    (heads.map (itemOf im)).Perm (files.map fun f => (some f.stored, f.data)) ∧
    ∀ head ∈ heads, head.start + head.size ≤ (AmlResImgHead.ofBytes im).imgSz
  size : im.length = (AmlResImgHead.ofBytes im).imgSz
  unpacked : ∀ needCheckCrc, ∃ d,
    resImgUnpack Creatable (some im) out needCheckCrc (fun _ => none) = some (0, d) ∧ Returns files d

/-- What the packed files need to be: below 4 GiB together, the visible ones under their stored
names, and each such that it is unpacked in full. -/
structure Restored (out : List Byte) (packed visible : List SrcFile) : Prop where
  ne : visible ≠ []
  total : packedSz packed < 2 ^ 32
  distinct : (visible.map SrcFile.stored).Nodup
  same : (packed.map fun f => (lastItemname f, f.data)).Perm
    (visible.map fun f => (f.stored, f.data))
  placed : ∀ f ∈ packed, Placed out f
  size : ∀ f ∈ packed, ¬ (f.data.length % itemReadBufSz = 0 ∧ f.data.length ≠ 0)

/-- A lookup by a key that no two entries share. -/
theorem find?_map_eq_some {α κ β : Type} [BEq κ] [LawfulBEq κ] {key : α → κ} {val : α → β}
    {l : List α} (h : (l.map key).Nodup) {k : κ} {v : β} :
    (l.find? fun a => key a == k).map val = some v ↔ (k, v) ∈ l.map fun a => (key a, val a) := by
  rw [List.mem_map]
  constructor
  · intro hfind
    obtain ⟨a, ha, rfl⟩ := Option.map_eq_some_iff.mp hfind
    have hkey : (key a == k) = true := List.find?_some (p := fun a => key a == k) ha
    exact ⟨a, List.mem_of_find?_eq_some ha, by rw [eq_of_beq hkey]⟩
  · rintro ⟨a, ha, heq⟩
    obtain ⟨rfl, rfl⟩ := Prod.mk.inj heq
    cases hfind : l.find? fun b => key b == key a with
    | none => exact absurd (beq_self_eq_true (key a)) (List.find?_eq_none.mp hfind a ha)
    | some b =>
      have hkey : (key b == key a) = true := List.find?_some (p := fun b => key b == key a) hfind
      rw [List.inj_on_of_nodup_map h (List.mem_of_find?_eq_some hfind) ha (eq_of_beq hkey)]
      rfl

section
variable {files visible : List SrcFile} {out : List Byte}

/-- The items of the image of some files. -/
theorem image_items (hp : Packable files) (hn : ∀ f ∈ files, Named f) :
    ∃ heads, links (image files) files.length imgHeadSz = some heads ∧
      heads.length = files.length ∧
      heads.map (itemOf (image files)) = files.map (fun f => (some (lastItemname f), f.data)) ∧
      ∀ head ∈ heads, head.start + head.size ≤ packedSz files := by
  have hhead := imgHead_fits hp (imageCrc_lt files)
  have hfit : ∀ h ∈ finalHeads files.length files 0 (imgHeadSz + itemHeadSz * files.length), h.Fits :=
    finalHeads_fits hn (by simpa using hp.head) hp.total
  have htotal := hp.total
  have hheads : (image files).drop (imgHeadSz + itemHeadSz * 0) =
      (finalHeads files.length files 0 (imgHeadSz + itemHeadSz * files.length)).flatMap
        AmlResItemHead.toBytes ++ files.flatMap body := by
    rw [image, imageWith, List.append_assoc, Nat.mul_zero, Nat.add_zero,
      List.drop_left' hhead.length_toBytes]
    rfl
  have hbodies : (image files).drop (imgHeadSz + itemHeadSz * files.length) =
      files.flatMap body ++ [] := by
    rw [List.append_nil, image, imageWith]
    refine List.drop_left' ?_
    rw [List.length_append, hhead.length_toBytes, length_allHeads hp hn]
  obtain ⟨hitems, hstarts⟩ := finalHeads_items files.length (i := 0) hn
    (by unfold packedSz at htotal; omega) hbodies
  exact ⟨_, links_finalHeads hp.ne hfit hheads, length_finalHeads, hitems, hstarts⟩

theorem image_head (hp : Packable files) :
    AmlResImgHead.ofBytes (image files) = imgHead files (imageCrc files) := by
  rw [image, imageWith, List.append_assoc]
  exact (imgHead_fits hp (imageCrc_lt files)).ofBytes_toBytes _

/-- The names of the items are distinct when those that the files are stored under are. -/
theorem nodup_of_same
    (h : (files.map fun f => (lastItemname f, f.data)).Perm
      (visible.map fun f => (f.stored, f.data)))
    (hdistinct : (visible.map SrcFile.stored).Nodup) : (files.map lastItemname).Nodup := by
  have hperm := h.map Prod.fst
  simp only [List.map_map, Function.comp_def] at hperm
  exact hperm.nodup_iff.mpr hdistinct

/-- The items of an image are those of its files. -/
theorem DirImage.same (hp : Packable files) (hn : ∀ f ∈ files, Named f)
    (h : DirImage visible out (image files)) :
    (files.map fun f => (lastItemname f, f.data)).Perm (visible.map fun f => (f.stored, f.data)) := by
  obtain ⟨fuel, heads, hlinks, -, hperm, -⟩ := h.items
  obtain ⟨heads', hlinks', -, hitems, -⟩ := image_items hp hn
  obtain rfl := links_unique hlinks hlinks'
  rw [hitems] at hperm
  simpa [Function.comp_def] using hperm.map fun p => (p.1.getD [], p.2)

theorem DirImage.restored (hp : Packable files) (hn : ∀ f ∈ files, Named f)
    (h : DirImage visible out (image files)) : Restored out files visible := by
  have hsame := h.same hp hn
  obtain ⟨d, hunpack, hdistinct, hd⟩ := h.unpacked true
  have hnames := nodup_of_same hsame hdistinct
  have hne : visible ≠ [] := by
    rintro rfl
    exact hp.ne (List.map_eq_nil_iff.mp hsame.eq_nil)
  rcases unpack_image out true (fun _ => none) hp hn with ⟨hplaced, hres⟩ | ⟨-, hres⟩
  · rw [hres] at hunpack
    cases hunpack
    refine ⟨hne, hp.total, hdistinct, hsame, hplaced, fun f hf => keptSz_eq_self.mp ?_⟩
    have hpacked : files.foldl putItem (fun _ => none) (lastItemname f) =
        some (f.data.take (keptSz f.data.length)) := by
      rw [putItem_of_nodup hnames, Option.or_none, find?_map_eq_some hnames]
      exact List.mem_map_of_mem (f := fun f => (lastItemname f, f.data.take (keptSz f.data.length))) hf
    have hvisible : (visible.find? fun g => g.stored == lastItemname f).map SrcFile.data =
        some f.data := by
      rw [find?_map_eq_some hdistinct]
      exact hsame.subset (List.mem_map_of_mem (f := fun f => (lastItemname f, f.data)) hf)
    rw [hd, hvisible] at hpacked
    have hlen := congrArg List.length (Option.some.inj hpacked)
    rw [List.length_take, Nat.min_eq_left (keptSz_le _)] at hlen
    exact hlen.symm
  · exact absurd rfl (hres 0 d hunpack)

theorem Restored.dirImage (hp : Packable files) (hn : ∀ f ∈ files, Named f)
    (h : Restored out files visible) : DirImage visible out (image files) := by
  obtain ⟨heads, hlinks, hlength, hitems, hstarts⟩ := image_items hp hn
  have hhead := image_head hp
  have hnames := nodup_of_same h.same h.distinct
  refine ⟨⟨files.length, heads, hlinks, ?_, ?_, ?_⟩, ?_, fun needCheckCrc => ?_⟩
  · rw [hhead, hlength]
    rfl
  · rw [hitems]
    simpa [Function.comp_def] using h.same.map fun p => (some p.1, p.2)
  · rw [hhead]
    exact hstarts
  · rw [hhead, length_image hp hn]
    rfl
  · rcases unpack_image out needCheckCrc (fun _ => none) hp hn with ⟨-, hres⟩ | ⟨⟨f, hf, hnot⟩, -⟩
    · refine ⟨_, hres, h.distinct, fun name => ?_⟩
      have hfull : ∀ f ∈ files, f.data.take (keptSz f.data.length) = f.data := fun f hf => by
        rw [keptSz_eq_self.mpr (h.size f hf), List.take_length]
      rw [putItem_of_nodup hnames, Option.or_none]
      refine Option.ext fun data => ?_
      rw [find?_map_eq_some hnames, find?_map_eq_some h.distinct, ← h.same.mem_iff,
        List.map_congr_left fun f hf => by rw [hfull f hf]]
    · exact absurd (h.placed f hf) hnot

theorem links_ne_nil {im : List Byte} {fuel o : Nat} {hs : List AmlResItemHead}
    (h : links im fuel o = some hs) : hs ≠ [] := by
  cases fuel with
  | zero => cases h
  | succ fuel =>
    rw [links] at h
    split at h
    · dsimp only at h
      split at h
      · cases h
        exact List.cons_ne_nil _ _
      · obtain ⟨rest, -, rfl⟩ := Option.map_eq_some_iff.mp h
        exact List.cons_ne_nil _ _
    · cases h

end

/-- **When the image of a directory is that of its visible files**. -/
theorem imgPackDir_iff {dirPath : CStr} {entries : List Entry} {im : List Byte}
    (h : imgPackDir dirPath entries = some (0, some im)) (out : List Byte) :
    DirImage (visible dirPath entries) out im ↔
      Restored out (packed dirPath entries) (visible dirPath entries) := by
  have hpack : packFiles (packed dirPath entries).length (packed dirPath entries) =
      some (0, some im) := by
    rw [length_packed]
    exact h
  have hlength : (packed dirPath entries).length = (visible dirPath entries).length := by
    rw [length_packed, getDirFilenums_eq dirPath]
  have hne (hvisible : visible dirPath entries ≠ []) : packed dirPath entries ≠ [] := fun hnil =>
    hvisible (List.length_eq_zero_iff.mp (by rw [← hlength, hnil, List.length_nil]))
  constructor
  · intro hdir
    have hvisible : visible dirPath entries ≠ [] := by
      intro hnil
      obtain ⟨fuel, heads, hlinks, -, hperm, -⟩ := hdir.items
      rw [hnil] at hperm
      exact links_ne_nil hlinks (List.map_eq_nil_iff.mp hperm.eq_nil)
    have hlen : im.length < 2 ^ 32 := hdir.size ▸ u32At_lt im 16
    obtain ⟨hp, hn, rfl⟩ := packFiles_image (hne hvisible) hpack
      (packedSz_lt (hne hvisible) hpack hlen)
    exact hdir.restored hp hn
  · intro hres
    obtain ⟨hp, hn, rfl⟩ := packFiles_image (hne hres.ne) hpack hres.total
    exact hres.dirImage hp hn

theorem imgPackDir_named {dirPath : CStr} {entries : List Entry}
    (hp : Packable (packed dirPath entries)) (hn : ∀ f ∈ packed dirPath entries, Named f) :
    imgPackDir dirPath entries = some (0, some (image (packed dirPath entries))) := by
  have himage := imgPack_named hp hn
  rw [imgPack, if_neg hp.ne, length_packed] at himage
  exact himage

def dirD : CStr := ⟨bytes "d", by decide⟩

/-- A file, and a hidden one after it. -/
def hiddenLast : List Entry :=
  [⟨⟨bytes ".", by decide⟩, []⟩, ⟨⟨bytes "a", by decide⟩, [1]⟩, ⟨⟨bytes ".h", by decide⟩, [2]⟩]

theorem dirImage_hiddenLast :
    DirImage (visible dirD hiddenLast) (bytes "out") (image (packed dirD hiddenLast)) := by
  have hp : Packable (packed dirD hiddenLast) := ⟨List.cons_ne_nil _ _, by decide, by decide⟩
  refine (imgPackDir_iff (imgPackDir_named hp (by decide)) (bytes "out")).2 ?_
  exact ⟨List.cons_ne_nil _ _, hp.total, by decide, by decide, by decide, by decide⟩

/-- A file, and a hidden one before it. -/
def hiddenFirst : List Entry :=
  [⟨⟨bytes ".h", by decide⟩, [1]⟩, ⟨⟨bytes "a", by decide⟩, [2]⟩]

/-- The hidden file is packed, and the other one is not. -/
theorem imgPackDir_hiddenFirst :
    imgPackDir dirD hiddenFirst = some (0, some (image (packed dirD hiddenFirst))) ∧
      ¬ DirImage (visible dirD hiddenFirst) (bytes "out") (image (packed dirD hiddenFirst)) := by
  have hp : Packable (packed dirD hiddenFirst) := ⟨List.cons_ne_nil _ _, by decide, by decide⟩
  have hn : ∀ f ∈ packed dirD hiddenFirst, Named f := by decide
  refine ⟨imgPackDir_named hp hn, fun h => ?_⟩
  have hmem := (h.same hp hn).subset List.mem_cons_self
  exact absurd hmem (by decide)

end VendorAmlogic.ResImg
