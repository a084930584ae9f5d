import VendorAmlogic.Lib.CString
import VendorAmlogic.ResImg.Format

/-!
# Resource images: packing

`_img_pack` of `logo_img_packer/res_pack.cpp` in file list mode. The files that
it reads are all there, and writing to the image does not fail.
-/

namespace VendorAmlogic.ResImg

open VendorAmlogic.Lib

/-- A file to pack. The path is a C string. -/
structure SrcFile where
  path : List Byte
  path_nul : 0 ∉ path
  data : List Byte

/-! ## Names -/

/-- `get_filename`: what is behind the last `/` or `\`. -/
def getFilename (fpath : List Byte) : List Byte :=
  (fpath.reverse.takeWhile fun c => c ≠ 0x2F ∧ c ≠ 0x5C).reverse

def bmpTag : List Byte := bytes ".bmp"

/-- `get_last_itemname`. -/
def getLastItemname (itemName : List Byte) : List Byte :=
  match strstr bmpTag itemName with
  | some suffix =>
    if suffix = bmpTag then itemName.take (itemName.length - suffix.length) else itemName
  | none => itemName

/-! ## Items -/

/-- The heads and the image as they are during the loop. -/
structure PackState where
  heads : List AmlResItemHead
  imageSz : Nat
  dest : Stream

/-- `itemBodyOccupySz`, `thisItemBodyOccupySz`: the mask is of 32 bits. -/
def occupySz (size : Nat) : Nat := u32 ((size &&& 0xFFFFFFF0) + amlResImgItemAlignSz : Nat)

/-- The head of an item; the buffer of the heads was zero. -/
def itemHead (totalItemNum itemIndex imageSz : Nat) (f : SrcFile) : AmlResItemHead where
  magic := ihMagic
  size := u32 f.data.length
  start := imageSz
  next := imgHeadSz + itemHeadSz * (itemIndex + 1)
  index := BitVec.ofNat 8 itemIndex
  nums := BitVec.ofNat 8 totalItemNum
  name :=
    let lastItemname := getLastItemname (getFilename f.path)
    lastItemname ++ List.replicate (ihNmlen - lastItemname.length) 0

/-- The loop of `_img_pack` over the files, with `ret`. The path is copied to a buffer of
`2 * MAX_PATH` bytes, and a head is put behind the other ones in a buffer of
`ITEM_READ_BUF_SZ`. -/
def packLoop (totalItemNum : Nat) : List SrcFile → Nat → PackState → Option (Int × PackState)
  | [], _, st => some (0, st)
  | f :: fs, itemIndex, st =>
    if f.path.length < maxPath * 2 ∧ imgHeadSz + itemHeadSz * (itemIndex + 1) ≤ itemReadBufSz then
      let itemSz := f.data.length
      let itemName := getFilename f.path
      let itemBodyOccupySz := occupySz itemSz
      let itemStuffSz := u32 (itemBodyOccupySz - itemSz)
      if ihNmlen - 1 < itemName.length then some (514, st)
      else
        let (dest, _, full) := forChunks itemReadBufSz itemSz (fun dest _ buf => dest.fwrite buf)
          (itemSz + 1) ⟨f.data, 0⟩ 0 st.dest
        if full then
          packLoop totalItemNum fs (itemIndex + 1)
            ⟨st.heads ++ [itemHead totalItemNum itemIndex st.imageSz f],
              u32 (st.imageSz + itemBodyOccupySz),
              dest.fwrite (List.replicate itemStuffSz 0)⟩
        else some (548, { st with dest := dest })
    else none

/-- `(--pItemHeadInfo)->next = 0`. -/
def endHeads : List AmlResItemHead → List AmlResItemHead
  | [] => []
  | [h] => [{ h with next := 0 }]
  | h :: hs => h :: endHeads hs

/-- The end of `_img_pack`: the heads are written over the zeros at the start, and then the
CRC of all that is behind it. -/
def packEnd (totalItemNum : Nat) (st : PackState) : Option (List Byte) := do
  let head : AmlResImgHead :=
    { crc := 0
      version := amlResImgVersionV2
      magic := amlResImgV1Magic
      imgSz := st.imageSz
      imgItemNum := totalItemNum
      alignSz := amlResImgItemAlignSz }
  let dest := (st.dest.fseek 0).fwrite
    (head.toBytes ++ (endHeads st.heads).flatMap AmlResItemHead.toBytes)
  let crc ← calcImgCrc dest 4 0
  some ((dest.fseek 0).fwrite (leBytes 4 crc)).data

/-- `_img_pack` where there are to be `totalItemNum` items: the result, and the image if it was
opened. -/
def packFiles (totalItemNum : Nat) (files : List SrcFile) : Option (Int × Option (List Byte)) :=
  let headLen := u32 (imgHeadSz + itemHeadSz * totalItemNum)
  if headLen > itemReadBufSz then some (462, none)
  else do
    let dest := Stream.fwrite ⟨[], 0⟩ (List.replicate headLen 0)
    let (ret, st) ← packLoop totalItemNum files 0 ⟨[], headLen, dest⟩
    if ret ≠ 0 then some (ret, some st.dest.data)
    else do
      let image ← packEnd totalItemNum st
      some (0, some image)

/-- `_img_pack` in file list mode. Without files it is directory mode. -/
def imgPack (files : List SrcFile) : Option (Int × Option (List Byte)) :=
  if files = [] then none else packFiles files.length files

/-! ## The items in the image -/

theorem land_align {n : Nat} (h : n < 2 ^ 32) : n &&& 0xFFFFFFF0 = n / 16 * 16 := by
  have hmask : (0xFFFFFFF0 : Nat) = (2 ^ 28 - 1) <<< 4 := rfl
  have hdiv : n / 16 * 16 = n >>> 4 <<< 4 := by
    rw [Nat.shiftRight_eq_div_pow, Nat.shiftLeft_eq]
  rw [hmask, hdiv]
  apply Nat.eq_of_testBit_eq
  intro i
  rw [Nat.testBit_and, Nat.testBit_shiftLeft, Nat.testBit_shiftLeft, Nat.testBit_shiftRight,
    Nat.testBit_two_pow_sub_one]
  by_cases h4 : 4 ≤ i
  · rw [show 4 + (i - 4) = i by omega]
    by_cases h32 : i < 32
    · simp [h4, show i - 4 < 28 by omega]
    · rw [Nat.testBit_lt_two_pow (Nat.lt_of_lt_of_le h (Nat.pow_le_pow_right (by decide) (by omega)))]
      simp
  · simp [h4]

theorem occupySz_eq {n : Nat} (h : n / 16 * 16 + 16 < 2 ^ 32) : occupySz n = n / 16 * 16 + 16 := by
  unfold occupySz
  rw [land_align (by omega)]
  exact u32_natCast h

/-- An item in the image. -/
def body (f : SrcFile) : List Byte :=
  f.data ++ List.replicate (f.data.length / 16 * 16 + 16 - f.data.length) 0

theorem length_body (f : SrcFile) : (body f).length = f.data.length / 16 * 16 + 16 := by
  rw [body, List.length_append, List.length_replicate]
  omega

/-- The path and the name of a file fit. -/
def Named (f : SrcFile) : Prop :=
  f.path.length < maxPath * 2 ∧ (getFilename f.path).length ≤ ihNmlen - 1

instance (f : SrcFile) : Decidable (Named f) := inferInstanceAs (Decidable (_ ∧ _))

/-- The heads that the loop makes, with the item at `sz` first. -/
def itemHeads (totalItemNum : Nat) : List SrcFile → Nat → Nat → List AmlResItemHead
  | [], _, _ => []
  | f :: fs, i, sz =>
    itemHead totalItemNum i sz f :: itemHeads totalItemNum fs (i + 1) (sz + (body f).length)

section
variable {total i : Nat} {f : SrcFile} {fs : List SrcFile} {st : PackState}

/-- **One file**. -/
theorem packLoop_cons (hf : Named f) (hi : imgHeadSz + itemHeadSz * (i + 1) ≤ itemReadBufSz)
    (hsz : st.imageSz + (body f).length < 2 ^ 32) (hend : st.dest.AtEnd) :
    packLoop total (f :: fs) i st =
      packLoop total fs (i + 1)
        ⟨st.heads ++ [itemHead total i st.imageSz f], st.imageSz + (body f).length,
          st.dest.fwrite (body f)⟩ := by
  have hlen := length_body f
  have hocc : occupySz f.data.length = (body f).length := by
    rw [occupySz_eq (by omega), hlen]
  have hstuff : u32 ((body f).length - f.data.length)
      = f.data.length / 16 * 16 + 16 - f.data.length := by
    rw [u32_sub (by omega) (by omega), hlen]
  have hadd : u32 (st.imageSz + (body f).length) = st.imageSz + (body f).length := by
    exact_mod_cast u32_natCast hsz
  have hcopy := forChunks_append (B := itemReadBufSz) (f := Stream.fwrite) Stream.AtEnd (by decide)
    (d := f.data) rfl (fun _ => Stream.fwrite_nil) (fun _ _ _ => Stream.fwrite_append)
    ⟨f.data, 0⟩ st.dest (Nat.lt_succ_self _) (List.append_nil f.data).symm hend
  rw [packLoop, if_pos ⟨hf.1, hi⟩]
  dsimp only
  rw [if_neg (Nat.not_lt.mpr hf.2), hcopy, hocc, hstuff, hadd]
  dsimp only
  rw [if_pos rfl, Stream.fwrite_append hend]
  rfl

/-- How the loop can end. -/
theorem packLoop_ends (total : Nat) (st : PackState)
    (hi : imgHeadSz + itemHeadSz * (i + fs.length) ≤ itemReadBufSz)
    (hsz : st.imageSz + (fs.flatMap body).length < 2 ^ 32) (hend : st.dest.AtEnd) :
    ((∀ f ∈ fs, Named f) ∧
      packLoop total fs i st =
        some (0, ⟨st.heads ++ itemHeads total fs i st.imageSz,
          st.imageSz + (fs.flatMap body).length, st.dest.fwrite (fs.flatMap body)⟩)) ∨
    ((∃ f ∈ fs, ¬ Named f) ∧
      ∀ ret st', packLoop total fs i st = some (ret, st') →
        ret ≠ 0 ∧ st.dest.data <+: st'.dest.data) := by
  induction fs generalizing i st with
  | nil =>
    refine .inl ⟨List.forall_mem_nil _, ?_⟩
    simp [packLoop, itemHeads, Stream.fwrite_nil hend]
  | cons f fs ih =>
    rw [List.flatMap_cons, List.length_append, ← Nat.add_assoc] at hsz
    rw [List.length_cons] at hi
    by_cases hf : Named f
    · rw [packLoop_cons hf (by unfold itemHeadSz at *; omega) (by omega) hend]
      rcases ih (i := i + 1) ⟨st.heads ++ [itemHead total i st.imageSz f],
          st.imageSz + (body f).length, st.dest.fwrite (body f)⟩
          (by unfold itemHeadSz at *; omega) hsz hend.fwrite with
        ⟨hall, h⟩ | ⟨⟨g, hg, hn⟩, h⟩
      · refine .inl ⟨List.forall_mem_cons.2 ⟨hf, hall⟩, ?_⟩
        rw [h, Stream.fwrite_append hend]
        simp [itemHeads, Nat.add_assoc]
      · refine .inr ⟨⟨g, List.mem_cons_of_mem _ hg, hn⟩, fun ret st' hp => ?_⟩
        obtain ⟨hret, hpre⟩ := h ret st' hp
        refine ⟨hret, List.IsPrefix.trans ?_ hpre⟩
        rw [Stream.fwrite_atEnd hend]
        exact List.prefix_append _ _
    · refine .inr ⟨⟨f, List.mem_cons_self, hf⟩, fun ret st' hp => ?_⟩
      rw [packLoop] at hp
      split at hp
      · rename_i hpath
        have hlong : ihNmlen - 1 < (getFilename f.path).length :=
          Nat.lt_of_not_le fun h => hf ⟨hpath.1, h⟩
        dsimp only at hp
        rw [if_pos hlong] at hp
        cases hp
        exact ⟨by decide, List.prefix_refl _⟩
      · cases hp

end

/-! ## The image -/

/-- The heads in the image: the last one has no next one. -/
def finalHeads (totalItemNum : Nat) : List SrcFile → Nat → Nat → List AmlResItemHead
  | [], _, _ => []
  | f :: fs, i, sz =>
    { itemHead totalItemNum i sz f with
      next := if fs = [] then 0 else imgHeadSz + itemHeadSz * (i + 1) } ::
      finalHeads totalItemNum fs (i + 1) (sz + (body f).length)

theorem endHeads_itemHeads {total i sz : Nat} {fs : List SrcFile} :
    endHeads (itemHeads total fs i sz) = finalHeads total fs i sz := by
  induction fs generalizing i sz with
  | nil => rfl
  | cons f fs ih =>
    cases fs with
    | nil => rfl
    | cons g fs =>
      rw [finalHeads, ← ih]
      rfl

def packedSz (files : List SrcFile) : Nat :=
  imgHeadSz + itemHeadSz * files.length + (files.flatMap body).length

/-- Some files, whose heads fit the buffer and whose image is below 4 GiB. -/
structure Packable (files : List SrcFile) : Prop where
  ne : files ≠ []
  head : imgHeadSz + itemHeadSz * files.length ≤ itemReadBufSz
  total : packedSz files < 2 ^ 32

/-- The image head. -/
def imgHead (files : List SrcFile) (crc : Nat) : AmlResImgHead where
  crc := crc
  version := amlResImgVersionV2
  magic := amlResImgV1Magic
  imgSz := packedSz files
  imgItemNum := files.length
  alignSz := amlResImgItemAlignSz

def allHeads (files : List SrcFile) : List Byte :=
  (finalHeads files.length files 0 (imgHeadSz + itemHeadSz * files.length)).flatMap
    AmlResItemHead.toBytes

/-- The image with some CRC. -/
def imageWith (files : List SrcFile) (crc : Nat) : List Byte :=
  (imgHead files crc).toBytes ++ allHeads files ++ files.flatMap body

def imageCrc (files : List SrcFile) : Nat := (crc32 0xffffffff ((imageWith files 0).drop 4)).toNat

/-- The image of some files. -/
def image (files : List SrcFile) : List Byte := imageWith files (imageCrc files)

theorem imageCrc_lt (files : List SrcFile) : imageCrc files < 2 ^ 32 := BitVec.isLt _

theorem imageWith_eq (files : List SrcFile) (crc : Nat) :
    imageWith files crc = leBytes 4 crc ++ (imageWith files 0).drop 4 := by
  simp [imageWith, imgHead, AmlResImgHead.toBytes]

/-! ## Names in the heads -/

theorem length_getLastItemname (name : List Byte) : (getLastItemname name).length ≤ name.length := by
  unfold getLastItemname
  split
  · split
    · exact List.length_take_le' _ _
    · exact Nat.le_refl _
  · exact Nat.le_refl _

section
variable {files : List SrcFile}

theorem imgHead_fits (hp : Packable files) {crc : Nat} (hcrc : crc < 2 ^ 32) :
    (imgHead files crc).Fits := by
  have h := hp.head
  unfold imgHeadSz itemHeadSz itemReadBufSz at h
  exact ⟨hcrc, show -2 ^ 31 ≤ amlResImgVersionV2 ∧ amlResImgVersionV2 < 2 ^ 31 by decide, rfl, hp.total, show files.length < 2 ^ 32 by omega,
    show amlResImgItemAlignSz < 2 ^ 32 by decide⟩

theorem finalHeads_fits {total i sz : Nat} {fs : List SrcFile} (hn : ∀ f ∈ fs, Named f)
    (hi : imgHeadSz + itemHeadSz * (i + fs.length) ≤ itemReadBufSz)
    (hsz : sz + (fs.flatMap body).length < 2 ^ 32) : ∀ h ∈ finalHeads total fs i sz, h.Fits := by
  induction fs generalizing i sz with
  | nil => exact List.forall_mem_nil _
  | cons f fs ih =>
    obtain ⟨hf, hfs⟩ := List.forall_mem_cons.1 hn
    have hlen := length_body f
    have hname := length_getLastItemname (getFilename f.path)
    have hlong := hf.2
    rw [List.flatMap_cons, List.length_append, ← Nat.add_assoc] at hsz
    rw [List.length_cons] at hi
    unfold imgHeadSz itemHeadSz itemReadBufSz at hi
    refine List.forall_mem_cons.2 ⟨⟨?_, ?_, ?_, ?_, ?_⟩, ih hfs ?_ hsz⟩
    · exact show ihMagic < 2 ^ 32 by decide
    · show u32 f.data.length < 2 ^ 32
      unfold u32
      omega
    · show sz < 2 ^ 32
      omega
    · show (if fs = [] then 0 else imgHeadSz + itemHeadSz * (i + 1)) < 2 ^ 32
      unfold imgHeadSz itemHeadSz
      split
      · decide
      · omega
    · simp only [itemHead, List.length_append, List.length_replicate]
      unfold ihNmlen at *
      omega
    · unfold imgHeadSz itemHeadSz itemReadBufSz
      omega

theorem length_flatMap_toBytes {hs : List AmlResItemHead} (h : ∀ x ∈ hs, x.Fits) :
    (hs.flatMap AmlResItemHead.toBytes).length = itemHeadSz * hs.length := by
  induction hs with
  | nil => rfl
  | cons x hs ih =>
    obtain ⟨hx, hs'⟩ := List.forall_mem_cons.1 h
    rw [List.flatMap_cons, List.length_append, hx.length_toBytes, ih hs', List.length_cons,
      Nat.mul_succ, Nat.add_comm]

theorem length_finalHeads {total i sz : Nat} {fs : List SrcFile} :
    (finalHeads total fs i sz).length = fs.length := by
  induction fs generalizing i sz with
  | nil => rfl
  | cons f fs ih => rw [finalHeads, List.length_cons, ih, List.length_cons]

theorem length_allHeads (hp : Packable files) (hn : ∀ f ∈ files, Named f) :
    (allHeads files).length = itemHeadSz * files.length := by
  rw [allHeads, length_flatMap_toBytes (finalHeads_fits hn (by simpa using hp.head) hp.total),
    length_finalHeads]

theorem length_image (hp : Packable files) (hn : ∀ f ∈ files, Named f) :
    (image files).length = packedSz files := by
  rw [image, imageWith, List.length_append, List.length_append,
    (imgHead_fits hp (imageCrc_lt files)).length_toBytes, length_allHeads hp hn]
  rfl

/-! ## What is packed -/

/-- The image before the loop: zeros in the place of the heads. -/
def zeroHeads (files : List SrcFile) : Stream :=
  Stream.fwrite ⟨[], 0⟩ (List.replicate (imgHeadSz + itemHeadSz * files.length) 0)

theorem zeroHeads_atEnd : (zeroHeads files).AtEnd := Stream.AtEnd.fwrite rfl

theorem zeroHeads_data :
    (zeroHeads files).data = List.replicate (imgHeadSz + itemHeadSz * files.length) 0 := by
  rw [zeroHeads, Stream.fwrite_atEnd (show Stream.AtEnd ⟨[], 0⟩ from rfl), List.nil_append]

theorem imgPack_eq (hp : Packable files) :
    imgPack files = (do
      let (ret, st) ← packLoop files.length files 0
        ⟨[], imgHeadSz + itemHeadSz * files.length, zeroHeads files⟩
      if ret ≠ 0 then some (ret, some st.dest.data)
      else do
        let image ← packEnd files.length st
        some (0, some image)) := by
  have hlen : u32 (imgHeadSz + itemHeadSz * files.length) = imgHeadSz + itemHeadSz * files.length := by
    exact_mod_cast u32_natCast (Nat.lt_of_le_of_lt hp.head (by decide))
  rw [imgPack, if_neg hp.ne, packFiles]
  dsimp only
  rw [hlen, if_neg (Nat.not_lt.mpr hp.head)]
  rfl

theorem packEnd_eq (hp : Packable files) (hn : ∀ f ∈ files, Named f) :
    packEnd files.length ⟨itemHeads files.length files 0 (imgHeadSz + itemHeadSz * files.length),
      packedSz files, (zeroHeads files).fwrite (files.flatMap body)⟩ = some (image files) := by
  have hfits := imgHead_fits hp (show 0 < 2 ^ 32 by decide)
  have hdata : ((zeroHeads files).fwrite (files.flatMap body)).data
      = List.replicate (imgHeadSz + itemHeadSz * files.length) 0 ++ files.flatMap body := by
    rw [Stream.fwrite_atEnd zeroHeads_atEnd, zeroHeads_data]
  have hheads : ((imgHead files 0).toBytes ++ allHeads files).length
      = (List.replicate (imgHeadSz + itemHeadSz * files.length) (0 : Byte)).length := by
    rw [List.length_append, hfits.length_toBytes, length_allHeads hp hn, List.length_replicate]
  have hlen : (imageWith files 0).length = packedSz files := by
    rw [imageWith, List.length_append, hheads, List.length_replicate]
    rfl
  have hsz : 4 < packedSz files := by
    unfold packedSz imgHeadSz
    omega
  generalize hdest : (((zeroHeads files).fwrite (files.flatMap body)).fseek 0).fwrite
    ((imgHead files 0).toBytes ++ allHeads files) = dest
  have hwrite : dest.data = imageWith files 0 := by
    rw [← hdest, Stream.fwrite_start hdata hheads]
    rfl
  have hcrc : calcImgCrc dest 4 0 = some (imageCrc files) := by
    have htotal := hp.total
    rw [calcImgCrc_eq (by rw [hwrite, hlen]; omega) (by rw [hwrite, hlen]; omega) (.inl rfl), hwrite]
    rfl
  have hstart : dest.data = (imageWith files 0).take 4 ++ (imageWith files 0).drop 4 := by
    rw [hwrite, List.take_append_drop]
  have hfinal := Stream.fwrite_start hstart (e := leBytes 4 (imageCrc files)) (by
    rw [length_leBytes, List.length_take]
    omega)
  rw [← imageWith_eq] at hfinal
  simp only [packEnd, endHeads_itemHeads]
  show ((calcImgCrc ((((zeroHeads files).fwrite (files.flatMap body)).fseek 0).fwrite
    ((imgHead files 0).toBytes ++ allHeads files)) 4 0).bind fun crc =>
      some ((((((zeroHeads files).fwrite (files.flatMap body)).fseek 0).fwrite
        ((imgHead files 0).toBytes ++ allHeads files)).fseek 0).fwrite (leBytes 4 crc)).data) = _
  rw [hdest, hcrc, Option.bind_some, hfinal]
  rfl

theorem imgPack_named (hp : Packable files) (hn : ∀ f ∈ files, Named f) :
    imgPack files = some (0, some (image files)) := by
  rw [imgPack_eq hp]
  rcases packLoop_ends (i := 0) files.length
      ⟨[], imgHeadSz + itemHeadSz * files.length, zeroHeads files⟩
      (by simpa using hp.head) hp.total zeroHeads_atEnd with ⟨-, h⟩ | ⟨⟨f, hf, hnot⟩, -⟩
  · have hend := packEnd_eq hp hn
    rw [h]
    simp only [List.nil_append, Option.bind_eq_bind, Option.bind_some, ne_eq, not_true, if_false]
    rw [← packedSz, hend]
    rfl
  · exact absurd (hn f hf) hnot

theorem imgPack_unnamed (hp : Packable files) (hn : ∃ f ∈ files, ¬ Named f) {ret : Int}
    {im : Option (List Byte)} (h : imgPack files = some (ret, im)) :
    ∃ rest, im = some (List.replicate (imgHeadSz + itemHeadSz * files.length) 0 ++ rest) := by
  obtain ⟨f, hf, hnot⟩ := hn
  rw [imgPack_eq hp] at h
  obtain ⟨⟨r, st⟩, hloop, h⟩ := Option.bind_eq_some_iff.mp h
  rcases packLoop_ends (i := 0) files.length
      ⟨[], imgHeadSz + itemHeadSz * files.length, zeroHeads files⟩
      (by simpa using hp.head) hp.total zeroHeads_atEnd with ⟨hall, -⟩ | ⟨-, hends⟩
  · exact absurd (hall f hf) hnot
  · obtain ⟨hr, rest, hrest⟩ := hends r st hloop
    dsimp only at h
    rw [if_pos hr] at h
    cases h
    rw [zeroHeads_data] at hrest
    exact ⟨rest, by rw [hrest]⟩

end

end VendorAmlogic.ResImg
