import Mathlib.Tactic
import VendorAmlogic.ResImg.Pack

/-!
# Resource images: unpacking

`res_img_unpack` of `logo_img_packer/res_pack.cpp`, for images of all versions.
The files of the directory that it unpacks to are a partial map. Which files can
be created there is a parameter: names in an image may lead to other directories.
In a plain directory it is every name that does not stand for a directory.
-/

namespace VendorAmlogic.ResImg

open VendorAmlogic.Lib

/-! ## The directory -/

/-- The files of a directory, by their names. -/
abbrev Dir := List Byte → Option (List Byte)

/-- The path `dir/name` is that of a file. -/
def Creatable (name : List Byte) : Prop := name ∉ [[], bytes ".", bytes ".."]

instance (name : List Byte) : Decidable (Creatable name) := inferInstanceAs (Decidable (¬ _))

/-- `fopen` with `"wb"`, where `opens` are the names that a file can be created under. -/
def Dir.fopen (opens : List Byte → Prop) [DecidablePred opens] (d : Dir) (name : List Byte) :
    Option Dir :=
  if opens name then some (Function.update d name (some [])) else none

/-- `fwrite` to an open file. -/
def Dir.fwrite (d : Dir) (name buf : List Byte) : Dir :=
  Function.update d name ((d name).map (· ++ buf))

/-! ## The source -/

/-- `_img_unpack_check_img_header`: an error, or the version, what was read of the image
and the stream at the first item. -/
def imgUnpackCheckImgHeader (image : List Byte) (needCheckCrc : Bool) :
    Option (Except Int (Int × List Byte × Stream)) :=
  let imgFileSz := u32 image.length
  if imgFileSz ≤ imgHeadSz then some (.error 252)
  else
    let thisReadSz := if itemReadBufSz > imgFileSz then imgFileSz else itemReadBufSz
    let (buf, fp) := Stream.fread ⟨image, 0⟩ thisReadSz
    if buf.length ≠ thisReadSz then some (.error 261)
    else
      let head := AmlResImgHead.ofBytes buf
      if head.magic = amlResImgV1Magic then
        if imgFileSz < head.imgSz then some (.error 268)
        else if amlResImgVersionV2 < head.version then some (.error 272)
        else do
          let ret ← if needCheckCrc then checkImgCrc fp 4 head.crc (u32 (head.imgSz - 4)) else some 0
          if ret ≠ 0 then some (.error 281)
          else
            let headLen := imgHeadSz +
              if head.version = amlResImgVersionV2 then head.imgItemNum * itemHeadSz else 0
            some (.ok (head.version, buf, fp.fseek (u32 headLen)))
      else if (AmlResItemHead.ofBytes buf).magic ≠ ihMagic then some (.error 294)
      else some (.ok (0, buf, fp.fseek 0))

/-- `_img_unpack_get_item_header`: the head of an item, which only version 2 has in what was
read of the image. In the other ones it is read to a place of the same buffer. -/
def imgUnpackGetItemHeader (imgVersion : Int) (buf : List Byte) (itemIndex : Nat) (fp : Stream) :
    Option (Option (AmlResItemHead × Stream)) :=
  let o := imgHeadSz + itemHeadSz * itemIndex
  if imgVersion = amlResImgVersionV2 then
    if o + itemHeadSz ≤ buf.length then
      let item := AmlResItemHead.ofBytes (buf.drop o)
      if item.magic ≠ ihMagic then some none else some (some (item, fp))
    else none
  else if imgVersion = amlResImgVersionV1 ∨ imgVersion = 0 then
    if o + itemHeadSz ≤ itemReadBufSz then
      let (bs, fp) := fp.fread itemHeadSz
      if bs.length ≠ itemHeadSz then some none
      else
        let item := AmlResItemHead.ofBytes bs
        if item.magic ≠ ihMagic then some none else some (some (item, fp))
    else none
  else none

/-- A field of characters as a string; without a NUL it would be read beyond its end. -/
def cString (field : List Byte) : Option (List Byte) :=
  (field.findIdx? (· == 0)).map field.take

/-- The bytes of a block that are written to the item. -/
def writeSz (bodySz stuffLen totalReadLen readSz : Nat) : Nat :=
  if totalReadLen < bodySz then readSz else u32 (readSz - stuffLen)

/-- The loop of `res_img_unpack` over the items. `ret` is still 0 when there is no head. The
path of the item is in a buffer of `2 * MAX_PATH` bytes. -/
def unpackLoop (opens : List Byte → Prop) [DecidablePred opens] (imgVersion : Int)
    (buf unPackDirPath : List Byte) :
    Nat → Nat → Stream → Dir → Option (Int × Dir)
  | 0, _, _, _ => none
  | fuel + 1, itemIndex, fp, d =>
    match imgUnpackGetItemHeader imgVersion buf itemIndex fp with
    | none => none
    | some none => some (0, d)
    | some (some (item, fp)) => do
      let name ← cString item.name
      if unPackDirPath.length + 1 + name.length < maxPath * 2 then
        match d.fopen opens name with
        | none => some (399, d)
        | some d =>
          let bodySz := item.size
          let bodyOccupySz := occupySz bodySz
          let stuffLen := u32 (bodyOccupySz - bodySz)
          let (d, fp, full) := forChunks itemReadBufSz bodyOccupySz
            (fun d totalReadLen block =>
              d.fwrite name (block.take (writeSz bodySz stuffLen totalReadLen block.length)))
            (bodyOccupySz + 1) fp 0 d
          if full then
            if item.next ≠ 0 then
              unpackLoop opens imgVersion buf unPackDirPath fuel (itemIndex + 1) fp d
            else some (0, d)
          else some (414, d)
      else none

/-- `res_img_unpack`. The buffer has room for fewer heads than there are rounds. -/
def resImgUnpack (opens : List Byte → Prop) [DecidablePred opens] (image : Option (List Byte))
    (unPackDirPath : List Byte) (needCheckCrc : Bool) (d : Dir) : Option (Int × Dir) :=
  match image with
  | none => some (356, d)
  | some image => do
    match ← imgUnpackCheckImgHeader image needCheckCrc with
    | .error _ => some (371, d)
    | .ok (imgVersion, buf, fp) =>
      unpackLoop opens imgVersion buf unPackDirPath (itemReadBufSz / itemHeadSz) 0 fp d

/-! ## The image head -/

/-- An image that only has zeros for its heads is not taken for one. -/
theorem check_zeros {n : Nat} (rest : List Byte) (needCheckCrc : Bool) (hn : imgHeadSz ≤ n) :
    ∃ e, imgUnpackCheckImgHeader (List.replicate n 0 ++ rest) needCheckCrc = some (.error e) := by
  unfold imgUnpackCheckImgHeader
  dsimp only
  by_cases hsz : u32 (List.replicate n (0 : Byte) ++ rest).length ≤ imgHeadSz
  · rw [if_pos hsz]
    exact ⟨_, rfl⟩
  · rw [if_neg hsz]
    generalize hread : (if itemReadBufSz > u32 (List.replicate n (0 : Byte) ++ rest).length then
      u32 (List.replicate n (0 : Byte) ++ rest).length else itemReadBufSz) = m
    have hm : imgHeadSz ≤ m := by
      rw [← hread]
      split
      · omega
      · decide
    obtain ⟨rest', hbuf⟩ : ∃ rest', (Stream.fread ⟨List.replicate n 0 ++ rest, 0⟩ m).1
        = List.replicate 64 0 ++ rest' := by
      refine ⟨(List.replicate (n - 64) 0 ++ rest).take (m - 64), ?_⟩
      have hn' : n = 64 + (n - 64) := by
        unfold imgHeadSz at hn
        omega
      rw [hn', List.replicate_add, List.append_assoc, Nat.add_sub_cancel_left]
      show (List.replicate 64 (0 : Byte) ++ _).take m = _
      rw [List.take_append, List.take_of_length_le (by rw [List.length_replicate]; exact hm), List.length_replicate]
    rw [hbuf]
    by_cases hshort : (List.replicate 64 0 ++ rest').length ≠ m
    · rw [if_pos hshort]
      exact ⟨_, rfl⟩
    · rw [if_neg hshort, if_neg, if_pos]
      · exact ⟨_, rfl⟩
      · exact show ofLe (List.replicate 4 0) ≠ ihMagic by decide
      · exact show ¬ List.replicate 8 0 = amlResImgV1Magic by decide

section
variable {files : List SrcFile}

theorem image_drop (files : List SrcFile) : (image files).drop 4 = (imageWith files 0).drop 4 := by
  rw [image, imageWith_eq, List.drop_left' (length_leBytes 4 _)]

/-- What is read of an image first, up to the end of the heads. -/
theorem image_take (hp : Packable files) (hn : ∀ f ∈ files, Named f) :
    ∃ rest, (image files).take (min (packedSz files) itemReadBufSz) =
      (imgHead files (imageCrc files)).toBytes ++ (allHeads files ++ rest) := by
  have hlen : ((imgHead files (imageCrc files)).toBytes ++ allHeads files).length ≤
      min (packedSz files) itemReadBufSz := by
    rw [List.length_append, (imgHead_fits hp (imageCrc_lt files)).length_toBytes,
      length_allHeads hp hn]
    have h := hp.head
    unfold packedSz
    omega
  rw [image, imageWith, List.take_append, List.take_of_length_le hlen, List.append_assoc]
  exact ⟨_, rfl⟩

theorem check_image (hp : Packable files) (hn : ∀ f ∈ files, Named f) (needCheckCrc : Bool) :
    imgUnpackCheckImgHeader (image files) needCheckCrc =
      some (.ok (amlResImgVersionV2, (image files).take (min (packedSz files) itemReadBufSz),
        ⟨image files, imgHeadSz + itemHeadSz * files.length⟩)) := by
  have hlen := length_image hp hn
  have htotal := hp.total
  have hsz : imgHeadSz < packedSz files := by
    have := List.length_pos_iff.mpr hp.ne
    unfold packedSz itemHeadSz
    omega
  have hmin : (if itemReadBufSz > packedSz files then packedSz files else itemReadBufSz)
      = min (packedSz files) itemReadBufSz := by
    split <;> omega
  have hread : Stream.fread ⟨image files, 0⟩ (min (packedSz files) itemReadBufSz)
      = ((image files).take (min (packedSz files) itemReadBufSz),
        ⟨image files, min (packedSz files) itemReadBufSz⟩) := by
    simp [Stream.fread, hlen]
  have hhead : AmlResImgHead.ofBytes ((image files).take (min (packedSz files) itemReadBufSz))
      = imgHead files (imageCrc files) := by
    obtain ⟨rest, hrest⟩ := image_take hp hn
    rw [hrest, (imgHead_fits hp (imageCrc_lt files)).ofBytes_toBytes]
  have hcrc : checkImgCrc ⟨image files, min (packedSz files) itemReadBufSz⟩ 4 (imageCrc files)
      (u32 (packedSz files - 4)) = some 0 := by
    have h4 : 4 < packedSz files := Nat.lt_trans (by decide) hsz
    have hsub : u32 (packedSz files - 4) = packedSz files - 4 := u32_sub (Nat.le_of_lt h4) htotal
    rw [checkImgCrc, calcImgCrc_eq (by rw [hlen]; exact h4) (by rw [hlen]; exact htotal)
      (.inr (by rw [hlen, hsub]))]
    simp [image_drop, imageCrc]
  have hseek : u32 (imgHeadSz + files.length * itemHeadSz)
      = imgHeadSz + itemHeadSz * files.length := by
    have h := Nat.lt_of_le_of_lt hp.head (show itemReadBufSz < 2 ^ 32 by decide)
    rw [Nat.mul_comm] at h ⊢
    exact_mod_cast u32_natCast h
  unfold imgUnpackCheckImgHeader
  rw [hlen, u32_natCast htotal]
  dsimp only
  rw [if_neg (Nat.not_le.mpr hsz), hmin, hread]
  dsimp only
  rw [hhead, if_neg (by simp [hlen])]
  simp [imgHead, hcrc, Stream.fseek, hseek]

end

/-! ## One item -/

/-- How much of an item is written: a block that ends where the item does is cut as if it had
the filling bytes. -/
def keptSz (size : Nat) : Nat := if size % itemReadBufSz = 0 ∧ size ≠ 0 then size - 16 else size

theorem keptSz_le (size : Nat) : keptSz size ≤ size := by
  unfold keptSz
  split <;> omega

theorem keptSz_eq_self {size : Nat} : keptSz size = size ↔ ¬ (size % itemReadBufSz = 0 ∧ size ≠ 0) := by
  unfold keptSz
  split <;> omega

/-- One block. -/
theorem writeSz_block {size t : Nat} (hsize : size / 16 * 16 + 16 < 2 ^ 32)
    (ht : t % itemReadBufSz = 0) (hlt : t < size / 16 * 16 + 16) :
    min t (keptSz size) + writeSz size (size / 16 * 16 + 16 - size)
        (t + min (size / 16 * 16 + 16 - t) itemReadBufSz) (min (size / 16 * 16 + 16 - t) itemReadBufSz)
      = min (t + min (size / 16 * 16 + 16 - t) itemReadBufSz) (keptSz size) ∧
    (t ≤ keptSz size ∨ writeSz size (size / 16 * 16 + 16 - size)
        (t + min (size / 16 * 16 + 16 - t) itemReadBufSz)
        (min (size / 16 * 16 + 16 - t) itemReadBufSz) = 0) := by
  unfold writeSz keptSz itemReadBufSz at *
  have h16 : 16 ≤ min (size / 16 * 16 + 16 - t) 65536 := by omega
  have hcut : u32 ((min (size / 16 * 16 + 16 - t) 65536 : Nat) - (size / 16 * 16 + 16 - size : Nat))
      = min (size / 16 * 16 + 16 - t) 65536 - (size / 16 * 16 + 16 - size) :=
    u32_sub (by omega) (by omega)
  rw [hcut]
  split <;> split <;> omega

theorem Dir.fwrite_update (d : Dir) (name a b : List Byte) :
    Dir.fwrite (Function.update d name (some a)) name b = Function.update d name (some (a ++ b)) := by
  simp [Dir.fwrite]

section
variable (size : Nat) (region name : List Byte)

/-- The body of the loop over the blocks of an item, whose bytes are the start of a region. -/
def writeBlock (d : Dir) (totalReadLen : Nat) (block : List Byte) : Dir :=
  d.fwrite name (block.take (writeSz size (region.length - size) totalReadLen block.length))

/-- What is in the item after `t` bytes were read, a multiple of the buffer until the end. -/
def Written (d : Dir) (t : Nat) (d' : Dir) : Prop :=
  (t % itemReadBufSz = 0 ∨ t = region.length) ∧
    d' = Function.update d name (some (region.take (min t (keptSz size))))

variable {size region}

theorem written_block {d d' : Dir} {t : Nat} (hlen : region.length = size / 16 * 16 + 16)
    (hsz : region.length < 2 ^ 32) (hlt : t < region.length) (h : Written size region name d t d') :
    Written size region name d (t + min (region.length - t) itemReadBufSz)
      (writeBlock size region name d' (t + min (region.length - t) itemReadBufSz)
        ((region.drop t).take (min (region.length - t) itemReadBufSz))) := by
  obtain ⟨ht, rfl⟩ := h
  have hkept := keptSz_le size
  have hblock : ((region.drop t).take (min (region.length - t) itemReadBufSz)).length
      = min (region.length - t) itemReadBufSz := by
    rw [List.length_take, List.length_drop]
    omega
  obtain ⟨hsum, hzero⟩ := writeSz_block (hlen ▸ hsz) (ht.resolve_right (by omega)) (hlen ▸ hlt)
  rw [← hlen] at hsum hzero
  refine ⟨?_, ?_⟩
  · unfold itemReadBufSz at *
    omega
  · rw [writeBlock, hblock, Dir.fwrite_update, List.take_take, ← hsum]
    generalize writeSz size (region.length - size) (t + min (region.length - t) itemReadBufSz)
      (min (region.length - t) itemReadBufSz) = w at *
    rcases Nat.eq_zero_or_pos w with hw | hw
    · rw [hw, Nat.zero_min, List.take_zero, List.append_nil, Nat.add_zero]
    · have hmin : min t (keptSz size) = t := by omega
      rw [hmin] at hsum ⊢
      rw [Nat.min_eq_left (by omega), List.take_add]

/-- **The blocks of an item**. -/
theorem unpack_blocks {rest : List Byte} {d : Dir} (fp : Stream)
    (hlen : region.length = size / 16 * 16 + 16) (hsz : region.length < 2 ^ 32)
    (hfp : fp.data.drop fp.pos = region ++ rest) :
    forChunks itemReadBufSz region.length (writeBlock size region name) (region.length + 1) fp 0
        (Function.update d name (some [])) =
      (Function.update d name (some (region.take (keptSz size))),
        ⟨fp.data, fp.pos + region.length⟩, true) := by
  have hkept := keptSz_le size
  obtain ⟨d', h1, -, h2⟩ := forChunks_inv (B := itemReadBufSz) (writeBlock size region name)
    (Written size region name d) (by decide) rfl
    (fun t d' hlt h => written_block name hlen hsz hlt h) (t := 0) fp
    (show region.length < region.length + 1 + 0 from Nat.lt_succ_self _) (Nat.zero_le _) hfp
    ⟨.inl rfl, by rw [Nat.zero_min, List.take_zero]⟩
  rw [h1, h2, Nat.min_eq_right (by omega), Nat.sub_zero]

end

theorem take_body (f : SrcFile) :
    (body f).take (keptSz f.data.length) = f.data.take (keptSz f.data.length) := by
  rw [body, List.take_append_of_le_length (keptSz_le _)]

/-! ## The items -/

/-- The name of an item in the image. -/
def lastItemname (f : SrcFile) : List Byte := getLastItemname (getFilename f.path)

theorem lastItemname_nul (f : SrcFile) : 0 ∉ lastItemname f := by
  have hfile : 0 ∉ getFilename f.path := by
    intro h
    rw [getFilename, List.mem_reverse] at h
    exact f.path_nul (List.mem_reverse.mp ((List.takeWhile_subset _) h))
  unfold lastItemname getLastItemname
  split
  · split
    · exact fun h => hfile (List.mem_of_mem_take h)
    · exact hfile
  · exact hfile

theorem Named.length_lastItemname {f : SrcFile} (h : Named f) :
    (lastItemname f).length < ihNmlen :=
  Nat.lt_of_le_of_lt (Nat.le_trans (length_getLastItemname _) h.2) (by decide)

theorem cString_eq {name : List Byte} (h0 : 0 ∉ name) (hlen : name.length < ihNmlen) :
    cString (name ++ List.replicate (ihNmlen - name.length) 0) = some name := by
  obtain ⟨n, hn⟩ : ∃ n, ihNmlen - name.length = n + 1 := ⟨ihNmlen - name.length - 1, by omega⟩
  have hnone : name.findIdx? (· == 0) = none := by
    rw [List.findIdx?_eq_none_iff]
    intro x hx
    simp only [beq_eq_false_iff_ne]
    rintro rfl
    exact h0 hx
  rw [cString, hn, List.replicate_succ, List.findIdx?_append, hnone, List.findIdx?_cons]
  simp

section
variable {total i sz fuel : Nat} {f : SrcFile} {fs : List SrcFile} {buf rest rest' dir : List Byte}
  {d : Dir}

/-- The head of an item is in the buffer. -/
theorem getItemHeader_eq {h : AmlResItemHead} {fp : Stream} (hf : h.Fits) (hm : h.magic = ihMagic)
    (hbuf : buf.drop (imgHeadSz + itemHeadSz * i) = h.toBytes ++ rest) :
    imgUnpackGetItemHeader amlResImgVersionV2 buf i fp = some (some (h, fp)) := by
  have hlen := congrArg List.length hbuf
  rw [List.length_drop, List.length_append, hf.length_toBytes] at hlen
  unfold imgUnpackGetItemHeader
  dsimp only
  rw [if_pos rfl, if_pos (by unfold itemHeadSz at *; omega), hbuf, hf.ofBytes_toBytes,
    if_neg (by simpa using hm)]

/-- An item can be unpacked to the directory. -/
def Placed (dir : List Byte) (f : SrcFile) : Prop :=
  dir.length + 1 + (lastItemname f).length < maxPath * 2 ∧ Creatable (lastItemname f)

instance (dir : List Byte) (f : SrcFile) : Decidable (Placed dir f) :=
  inferInstanceAs (Decidable (_ ∧ _))

/-- The directory with an item in it. -/
def putItem (d : Dir) (f : SrcFile) : Dir :=
  Function.update d (lastItemname f) (some (f.data.take (keptSz f.data.length)))

/-- **One item**. -/
theorem unpackLoop_cons (fp : Stream) (hn : Named f)
    (hfit : ∀ h ∈ finalHeads total (f :: fs) i sz, h.Fits) (hsz : (body f).length < 2 ^ 32)
    (hbuf : buf.drop (imgHeadSz + itemHeadSz * i) =
      (finalHeads total (f :: fs) i sz).flatMap AmlResItemHead.toBytes ++ rest)
    (hfp : fp.data.drop fp.pos = body f ++ rest') :
    unpackLoop Creatable amlResImgVersionV2 buf dir (fuel + 1) i fp d =
      if dir.length + 1 + (lastItemname f).length < maxPath * 2 then
        if Creatable (lastItemname f) then
          if fs = [] then some (0, putItem d f)
          else unpackLoop Creatable amlResImgVersionV2 buf dir fuel (i + 1)
            ⟨fp.data, fp.pos + (body f).length⟩ (putItem d f)
        else some (399, d)
      else none := by
  rw [finalHeads, List.flatMap_cons, List.append_assoc] at hbuf
  have hlen := length_body f
  have hsize : u32 f.data.length = f.data.length := u32_natCast (by omega)
  have hocc : occupySz f.data.length = (body f).length := by
    rw [occupySz_eq (by omega), hlen]
  have hstuff : u32 ((body f).length - f.data.length) = (body f).length - f.data.length :=
    u32_sub (by omega) hsz
  have hblocks := unpack_blocks (lastItemname f) (d := d) fp hlen hsz hfp
  rw [take_body] at hblocks
  unfold writeBlock at hblocks
  rw [unpackLoop, getItemHeader_eq (hfit _ List.mem_cons_self) rfl hbuf]
  dsimp only [itemHead]
  rw [← lastItemname, cString_eq (lastItemname_nul f) hn.length_lastItemname]
  simp only [Option.bind_eq_bind, Option.bind_some]
  refine if_congr Iff.rfl ?_ rfl
  rw [Dir.fopen]
  by_cases hc : Creatable (lastItemname f)
  · rw [if_pos hc, if_pos hc]
    dsimp only
    rw [hsize, hocc, hstuff, hblocks]
    dsimp only
    rw [if_pos rfl]
    by_cases hfs : fs = []
    · rw [if_pos hfs, if_pos hfs, if_neg (by decide)]
      rfl
    · rw [if_neg hfs, if_neg hfs, if_pos (by unfold imgHeadSz; omega)]
      rfl
  · rw [if_neg hc, if_neg hc]

/-- How the loop can end on an image. -/
theorem unpackLoop_ends (fp : Stream) (hne : fs ≠ []) (hn : ∀ f ∈ fs, Named f)
    (hfit : ∀ h ∈ finalHeads total fs i sz, h.Fits) (hsz : (fs.flatMap body).length < 2 ^ 32)
    (hbuf : buf.drop (imgHeadSz + itemHeadSz * i) =
      (finalHeads total fs i sz).flatMap AmlResItemHead.toBytes ++ rest)
    (hfp : fp.data.drop fp.pos = fs.flatMap body ++ rest') (hfuel : fs.length ≤ fuel) :
    ((∀ f ∈ fs, Placed dir f) ∧
      unpackLoop Creatable amlResImgVersionV2 buf dir fuel i fp d = some (0, fs.foldl putItem d)) ∨
    ((∃ f ∈ fs, ¬ Placed dir f) ∧
      ∀ ret d', unpackLoop Creatable amlResImgVersionV2 buf dir fuel i fp d = some (ret, d') → ret ≠ 0) := by
  induction fs generalizing fuel i sz fp d with
  | nil => exact absurd rfl hne
  | cons f fs ih =>
    obtain ⟨hf, hfs⟩ := List.forall_mem_cons.1 hn
    rw [List.flatMap_cons, List.length_append] at hsz
    rw [List.flatMap_cons, List.append_assoc] at hfp
    obtain ⟨fuel, rfl⟩ : ∃ k, fuel = k + 1 := ⟨fuel - 1, by rw [List.length_cons] at hfuel; omega⟩
    rw [unpackLoop_cons fp hf hfit (by omega) hbuf hfp]
    by_cases hpl : Placed dir f
    · rw [if_pos hpl.1, if_pos hpl.2]
      by_cases hnil : fs = []
      · rw [if_pos hnil, hnil]
        exact .inl ⟨List.forall_mem_singleton.2 hpl, rfl⟩
      · have hbuf' : buf.drop (imgHeadSz + itemHeadSz * (i + 1)) =
            (finalHeads total fs (i + 1) (sz + (body f).length)).flatMap AmlResItemHead.toBytes ++ rest := by
          rw [Nat.mul_succ, ← Nat.add_assoc, ← List.drop_drop, hbuf, finalHeads, List.flatMap_cons,
            List.append_assoc, List.drop_left' (hfit _ List.mem_cons_self).length_toBytes]
        rw [if_neg hnil]
        rcases ih (d := putItem d f) ⟨fp.data, fp.pos + (body f).length⟩ hnil hfs
          (fun h hh => hfit h (List.mem_cons_of_mem _ hh)) (by omega) hbuf'
          (Stream.drop_fread hfp rfl) (Nat.le_of_succ_le_succ hfuel) with
          ⟨hall, h⟩ | ⟨⟨g, hg, hng⟩, h⟩
        · exact .inl ⟨List.forall_mem_cons.2 ⟨hpl, hall⟩, h⟩
        · exact .inr ⟨⟨g, List.mem_cons_of_mem _ hg, hng⟩, h⟩
    · refine .inr ⟨⟨f, List.mem_cons_self, hpl⟩, fun ret d' h => ?_⟩
      split at h
      · rename_i hdir
        rw [if_neg fun hc => hpl ⟨hdir, hc⟩] at h
        cases h
        decide
      · cases h

end

/-- **What an image is unpacked to**. -/
theorem unpack_image {files : List SrcFile} (dir : List Byte) (needCheckCrc : Bool) (d : Dir)
    (hp : Packable files) (hn : ∀ f ∈ files, Named f) :
    ((∀ f ∈ files, Placed dir f) ∧
      resImgUnpack Creatable (some (image files)) dir needCheckCrc d =
        some (0, files.foldl putItem d)) ∨
    ((∃ f ∈ files, ¬ Placed dir f) ∧ ∀ ret d',
      resImgUnpack Creatable (some (image files)) dir needCheckCrc d = some (ret, d') → ret ≠ 0) := by
  have hunpack : resImgUnpack Creatable (some (image files)) dir needCheckCrc d =
      unpackLoop Creatable amlResImgVersionV2
        ((image files).take (min (packedSz files) itemReadBufSz)) dir
        (itemReadBufSz / itemHeadSz) 0 ⟨image files, imgHeadSz + itemHeadSz * files.length⟩ d := by
    rw [resImgUnpack, check_image hp hn]
    rfl
  obtain ⟨rest, hrest⟩ := image_take hp hn
  have htotal := hp.total
  have hhead := hp.head
  have hfit : ∀ h ∈ finalHeads files.length files 0 (imgHeadSz + itemHeadSz * files.length), h.Fits :=
    finalHeads_fits hn (by simpa using hhead) htotal
  have hbuf : ((image files).take (min (packedSz files) itemReadBufSz)).drop (imgHeadSz + itemHeadSz * 0)
      = allHeads files ++ rest := by
    rw [hrest, Nat.mul_zero, Nat.add_zero, List.drop_left' (imgHead_fits hp (imageCrc_lt files)).length_toBytes]
  have hfp : (image files).drop (imgHeadSz + itemHeadSz * files.length)
      = files.flatMap body ++ [] := by
    rw [List.append_nil, image, imageWith]
    refine List.drop_left' ?_
    rw [List.length_append, (imgHead_fits hp (imageCrc_lt files)).length_toBytes,
      length_allHeads hp hn]
  rw [hunpack]
  refine unpackLoop_ends (i := 0) ⟨image files, imgHeadSz + itemHeadSz * files.length⟩ hp.ne hn hfit
    (by unfold packedSz at htotal; omega) hbuf hfp ?_
  unfold imgHeadSz itemHeadSz itemReadBufSz at *
  omega

end VendorAmlogic.ResImg
