import VendorAmlogic.ResImg.Unpack

/-!
# Resource images: what the result of unpacking says

A result of 0 of `res_img_unpack` is to say that every item that the header
announces was found and written. `ret` is still 0 where a head is not there or
is none, and the number of items in the image head is not looked at:
`reports_iff`.
-/

namespace VendorAmlogic.ResImg

open VendorAmlogic.Lib

/-! ## Rounds of the loop -/

/-- What the loop has before an item. -/
structure Walk where
  index : Nat
  fp : Stream
  d : Dir

section
variable (opens : List Byte → Prop) [DecidablePred opens] (imgVersion : Int) (buf dir : List Byte)

/-- One round: the result where the loop is left, or the item and what the loop has then. -/
def unpackRound (w : Walk) : Option (Except (Int × Dir) (AmlResItemHead × Walk)) :=
  match imgUnpackGetItemHeader imgVersion buf w.index w.fp with
  | none => none
  | some none => some (.error (0, w.d))
  | some (some (item, fp)) => do
    let name ← cString item.name
    if dir.length + 1 + name.length < maxPath * 2 then
      match w.d.fopen opens name with
      | none => some (.error (399, w.d))
      | some d =>
        let (d, fp, full) := forChunks itemReadBufSz (occupySz item.size)
          (fun d totalReadLen block => d.fwrite name
            (block.take (writeSz item.size (u32 (occupySz item.size - item.size)) totalReadLen
              block.length)))
          (occupySz item.size + 1) fp 0 d
        if full then some (.ok (item, ⟨w.index + 1, fp, d⟩)) else some (.error (414, d))
    else none

/-- What follows a round. -/
def nextRound (fuel : Nat) : Except (Int × Dir) (AmlResItemHead × Walk) → Option (Int × Dir)
  | .error r => some r
  | .ok (item, w) =>
    if item.next ≠ 0 then unpackLoop opens imgVersion buf dir fuel w.index w.fp w.d
    else some (0, w.d)

theorem unpackLoop_succ (fuel : Nat) (w : Walk) :
    unpackLoop opens imgVersion buf dir (fuel + 1) w.index w.fp w.d =
      (unpackRound opens imgVersion buf dir w).bind (nextRound opens imgVersion buf dir fuel) := by
  unfold unpackLoop unpackRound
  cases imgUnpackGetItemHeader imgVersion buf w.index w.fp with
  | none => rfl
  | some found =>
    cases found with
    | none => rfl
    | some item =>
      dsimp only
      cases cString item.1.name with
      | none => rfl
      | some name =>
        simp only [Option.bind_eq_bind, Option.bind_some]
        split
        · cases w.d.fopen opens name with
          | none => rfl
          | some d =>
            dsimp only
            split
            · rfl
            · rfl
        · rfl

end

/-! ## The items of an image -/

/-- What there is where the loop looks for an item. -/
inductive Found where
  /-- A head outside the buffer, a name without an end, or a path that is too long. -/
  | undefined
  | missing
  /-- The file cannot be created, or the image ends in the item. -/
  | fails
  | item (head : AmlResItemHead) (name : List Byte) (after : Stream)

section
variable (opens : List Byte → Prop) [DecidablePred opens] (imgVersion : Int) (buf dir : List Byte)

/-- The item of some index, with the image from where it was read. -/
def find (index : Nat) (fp : Stream) : Found :=
  match imgUnpackGetItemHeader imgVersion buf index fp with
  | none => .undefined
  | some none => .missing
  | some (some (head, fp)) =>
    match cString head.name with
    | none => .undefined
    | some name =>
      if dir.length + 1 + name.length < maxPath * 2 then
        if opens name ∧ occupySz head.size ≤ (fp.data.drop fp.pos).length then
          .item head name ⟨fp.data, fp.pos + occupySz head.size⟩
        else .fails
      else .undefined

/-- The chain of the items: those that are whole in the image, and if it ends with an error. -/
def chain : Nat → Nat → Stream → Option (List AmlResItemHead × Bool)
  | 0, _, _ => none
  | fuel + 1, index, fp =>
    match find opens imgVersion buf dir index fp with
    | .undefined => none
    | .missing => some ([], false)
    | .fails => some ([], true)
    | .item head _ after =>
      if head.next ≠ 0 then
        (chain fuel (index + 1) after).map fun r => (head :: r.1, r.2)
      else some ([head], false)

end

/-- How much of an item is written. -/
def writtenSz (size : Nat) : Nat := if size < 0xFFFFFFF0 then keptSz size else 0

/-- An item of this size is written in full. -/
def Whole (size : Nat) : Prop :=
  size < 0xFFFFFFF0 ∧ ¬ (size % itemReadBufSz = 0 ∧ size ≠ 0)

instance (size : Nat) : Decidable (Whole size) := inferInstanceAs (Decidable (_ ∧ _))

theorem writtenSz_eq_self {size : Nat} : writtenSz size = size ↔ Whole size := by
  unfold writtenSz Whole
  split
  · rename_i h
    rw [keptSz_eq_self]
    exact ⟨fun hk => ⟨h, hk⟩, fun hw => hw.2⟩
  · rename_i h
    exact iff_of_false (by omega) fun hw => h hw.1

section
variable {opens : List Byte → Prop} [DecidablePred opens] {imgVersion : Int} {buf dir : List Byte}

theorem getItemHeader_spec {index : Nat} {fp fp' : Stream} {head : AmlResItemHead}
    (h : imgUnpackGetItemHeader imgVersion buf index fp = some (some (head, fp'))) :
    head.magic = ihMagic ∧ head.size < 2 ^ 32 := by
  unfold imgUnpackGetItemHeader at h
  dsimp only at h
  split at h
  · split at h
    · split at h
      · cases h
      · rename_i hmagic
        cases h
        exact ⟨not_not.mp hmagic, u32At_lt _ _⟩
    · cases h
  · split at h
    · split at h
      · split at h
        · cases h
        · split at h
          · cases h
          · rename_i hmagic
            cases h
            exact ⟨not_not.mp hmagic, u32At_lt _ _⟩
      · cases h
    · cases h

theorem occupySz_high {size : Nat} (h : ¬ size < 0xFFFFFFF0) (hlt : size < 2 ^ 32) :
    occupySz size = 0 := by
  unfold occupySz
  rw [land_align hlt, show size / 16 * 16 = 0xFFFFFFF0 by omega]
  rfl

/-- The blocks of an item that is whole in the image. -/
theorem copy_item {size : Nat} (name : List Byte) (fp : Stream) (d : Dir) (hlt : size < 2 ^ 32)
    (hroom : occupySz size ≤ (fp.data.drop fp.pos).length) :
    ∃ data, forChunks itemReadBufSz (occupySz size)
        (fun (d : Dir) totalReadLen block => d.fwrite name
          (block.take (writeSz size (u32 (occupySz size - size)) totalReadLen block.length)))
        (occupySz size + 1) fp 0 (Function.update d name (some [])) =
      (Function.update d name (some data), ⟨fp.data, fp.pos + occupySz size⟩, true) ∧
      data.length = writtenSz size := by
  by_cases hsize : size < 0xFFFFFFF0
  · have hocc : occupySz size = size / 16 * 16 + 16 := occupySz_eq (by omega)
    have hregion : ((fp.data.drop fp.pos).take (occupySz size)).length = occupySz size :=
      List.length_take_of_le hroom
    have hstuff : u32 (occupySz size - size) = occupySz size - size := u32_sub (by omega) (by omega)
    have hblocks := unpack_blocks name (d := d) fp (show _ = size / 16 * 16 + 16 from hregion.trans hocc) (by omega)
      (List.take_append_drop (occupySz size) _).symm
    unfold writeBlock at hblocks
    rw [hregion] at hblocks
    refine ⟨((fp.data.drop fp.pos).take (occupySz size)).take (keptSz size), ?_, ?_⟩
    · rw [hstuff]
      exact hblocks
    · have hkept := keptSz_le size
      rw [List.length_take, hregion, writtenSz, if_pos hsize]
      omega
  · rw [occupySz_high hsize hlt]
    refine ⟨[], rfl, ?_⟩
    rw [writtenSz, if_neg hsize]
    rfl

/-- What a round makes of what it finds. -/
inductive Outcome (w : Walk) : Found → Option (Except (Int × Dir) (AmlResItemHead × Walk)) → Prop
  | undefined : Outcome w .undefined none
  | missing : Outcome w .missing (some (.error (0, w.d)))
  | fails {ret : Int} {d : Dir} (hret : ret ≠ 0) : Outcome w .fails (some (.error (ret, d)))
  | item {head : AmlResItemHead} {name data : List Byte} {after : Stream}
      (magic : head.magic = ihMagic) (hname : cString head.name = some name)
      (written : data.length = writtenSz head.size) :
      Outcome w (.item head name after)
        (some (.ok (head, ⟨w.index + 1, after, Function.update w.d name (some data)⟩)))

theorem round_outcome (w : Walk) :
    Outcome w (find opens imgVersion buf dir w.index w.fp)
      (unpackRound opens imgVersion buf dir w) := by
  unfold find unpackRound
  cases hget : imgUnpackGetItemHeader imgVersion buf w.index w.fp with
  | none => exact .undefined
  | some found =>
    obtain _ | ⟨head, fp⟩ := found
    · exact .missing
    · obtain ⟨hmagic, hlt⟩ := getItemHeader_spec hget
      dsimp only
      cases hname : cString head.name with
      | none => exact .undefined
      | some name =>
        simp only [Option.bind_eq_bind, Option.bind_some, Dir.fopen]
        by_cases hpath : dir.length + 1 + name.length < maxPath * 2
        · rw [if_pos hpath, if_pos hpath]
          by_cases hopen : opens name
          · rw [if_pos hopen]
            by_cases hroom : occupySz head.size ≤ (fp.data.drop fp.pos).length
            · obtain ⟨data, hcopy, hdata⟩ := copy_item name fp w.d hlt hroom
              rw [if_pos ⟨hopen, hroom⟩]
              dsimp only
              rw [hcopy]
              exact .item hmagic hname hdata
            · rw [if_neg fun hand => hroom hand.2]
              dsimp only
              rw [if_neg]
              · exact .fails (by decide)
              · rw [forChunks_short _ fp _ (by omega)]
                exact Bool.false_ne_true
          · rw [if_neg hopen, if_neg fun hand => hopen hand.1]
            exact .fails (by decide)
        · rw [if_neg hpath, if_neg hpath]
          exact .undefined

variable (opens imgVersion buf dir) in
/-- How the loop ends on a chain. -/
theorem unpackLoop_chain (fuel : Nat) (w : Walk) :
    (chain opens imgVersion buf dir fuel w.index w.fp = none ∧
      unpackLoop opens imgVersion buf dir fuel w.index w.fp w.d = none) ∨
    (∃ items ret d, chain opens imgVersion buf dir fuel w.index w.fp = some (items, true) ∧
      unpackLoop opens imgVersion buf dir fuel w.index w.fp w.d = some (ret, d) ∧ ret ≠ 0) ∨
    ∃ items d, chain opens imgVersion buf dir fuel w.index w.fp = some (items, false) ∧
      unpackLoop opens imgVersion buf dir fuel w.index w.fp w.d = some (0, d) := by
  induction fuel generalizing w with
  | zero => exact .inl ⟨rfl, rfl⟩
  | succ fuel ih =>
    have hround : Outcome w (find opens imgVersion buf dir w.index w.fp)
      (unpackRound opens imgVersion buf dir w) := round_outcome w
    rw [unpackLoop_succ, chain]
    generalize find opens imgVersion buf dir w.index w.fp = found at hround ⊢
    generalize unpackRound opens imgVersion buf dir w = round at hround ⊢
    cases hround with
    | undefined => exact .inl ⟨rfl, rfl⟩
    | missing => exact .inr (.inr ⟨[], w.d, rfl, rfl⟩)
    | fails hret => exact .inr (.inl ⟨[], _, _, rfl, rfl, hret⟩)
    | @item head name data after hmagic hname hdata =>
      dsimp only
      rw [Option.bind_some, nextRound]
      by_cases hnext : head.next ≠ 0
      · rw [if_pos hnext, if_pos hnext]
        rcases ih ⟨w.index + 1, after, Function.update w.d name (some data)⟩ with
          ⟨hc, hu⟩ | ⟨items, ret, d, hc, hu, hret⟩ | ⟨items, d, hc, hu⟩
        · exact .inl ⟨by rw [hc]; rfl, hu⟩
        · exact .inr (.inl ⟨head :: items, ret, d, by rw [hc]; rfl, hu, hret⟩)
        · exact .inr (.inr ⟨head :: items, d, by rw [hc]; rfl, hu⟩)
      · rw [if_neg hnext, if_neg hnext]
        exact .inr (.inr ⟨[head], _, rfl, rfl⟩)

end

/-! ## What the result says -/

section
variable (opens : List Byte → Prop) [DecidablePred opens] (imgVersion : Int) (buf dir : List Byte)

/-- The next item is found, and its file has the size of the item. -/
def Unpacks (w : Walk) : Prop :=
  ∃ item name w' data, unpackRound opens imgVersion buf dir w = some (.ok (item, w')) ∧
    item.magic = ihMagic ∧ cString item.name = some name ∧ w'.d name = some data ∧
    data.length = item.size

/-- What the loop has before the item of some number. -/
def rounds : Nat → Walk → Option Walk
  | 0, w => some w
  | j + 1, w =>
    match unpackRound opens imgVersion buf dir w with
    | some (.ok (item, w)) => if item.next ≠ 0 then rounds j w else none
    | _ => none

variable {opens imgVersion buf dir}

theorem rounds_error {w : Walk} {r : Int × Dir} (j : Nat)
    (h : unpackRound opens imgVersion buf dir w = some (.error r)) :
    ¬ ∃ w', rounds opens imgVersion buf dir j w = some w' ∧ Unpacks opens imgVersion buf dir w' := by
  rintro ⟨w', hw, item, name, w'', data, hround, -⟩
  cases j with
  | zero =>
    cases hw
    rw [h] at hround
    cases hround
  | succ j =>
    rw [rounds, h] at hw
    cases hw

theorem unpacks_iff {w w' : Walk} {head : AmlResItemHead} {name data : List Byte}
    (h : unpackRound opens imgVersion buf dir w = some (.ok (head, w')))
    (hmagic : head.magic = ihMagic) (hname : cString head.name = some name)
    (hd : w'.d name = some data) (hdata : data.length = writtenSz head.size) :
    Unpacks opens imgVersion buf dir w ↔ Whole head.size := by
  rw [← writtenSz_eq_self]
  constructor
  · rintro ⟨item, name', w'', data', hround, -, hname', hd', hlen⟩
    rw [h] at hround
    cases hround
    obtain rfl := Option.some.inj (hname.symm.trans hname')
    obtain rfl := Option.some.inj (hd.symm.trans hd')
    exact hdata.symm.trans hlen
  · exact fun hwhole => ⟨head, name, w', data, h, hmagic, hname, hd, hdata.trans hwhole⟩

/-- Numbered by the rounds of the loop, the items of the chain are those that it unpacks. -/
theorem rounds_chain (fuel : Nat) (w : Walk) (j : Nat) {items : List AmlResItemHead} {fails : Bool}
    (h : chain opens imgVersion buf dir fuel w.index w.fp = some (items, fails)) :
    (∃ w', rounds opens imgVersion buf dir j w = some w' ∧ Unpacks opens imgVersion buf dir w') ↔
      ∃ head, items[j]? = some head ∧ Whole head.size := by
  induction fuel generalizing w j items with
  | zero => cases h
  | succ fuel ih =>
    have hround : Outcome w (find opens imgVersion buf dir w.index w.fp)
      (unpackRound opens imgVersion buf dir w) := round_outcome w
    rw [chain] at h
    generalize find opens imgVersion buf dir w.index w.fp = found at hround h
    generalize hr : unpackRound opens imgVersion buf dir w = round at hround
    cases hround with
    | undefined => cases h
    | missing =>
      cases h
      exact iff_of_false (rounds_error j hr) (by simp)
    | fails hret =>
      cases h
      exact iff_of_false (rounds_error j hr) (by simp)
    | @item head name data after hmagic hname hdata =>
      dsimp only at h
      have hfirst := unpacks_iff hr hmagic hname (Function.update_self name (some data) w.d) hdata
      by_cases hnext : head.next ≠ 0
      · rw [if_pos hnext] at h
        obtain ⟨⟨rest, e⟩, hrest, heq⟩ := Option.map_eq_some_iff.mp h
        cases heq
        cases j with
        | zero => simpa [rounds] using hfirst
        | succ j =>
          rw [rounds, hr]
          dsimp only
          rw [if_pos hnext, List.getElem?_cons_succ]
          exact ih ⟨w.index + 1, after, Function.update w.d name (some data)⟩ j hrest
      · rw [if_neg hnext] at h
        cases h
        cases j with
        | zero => simpa [rounds] using hfirst
        | succ j =>
          rw [rounds, hr]
          dsimp only
          rw [if_neg hnext]
          exact iff_of_false (fun hex => by cases hex.choose_spec.1) (by simp)

end

/-! ## The header -/

/-- The number of items that the header announces: that of the image head, or, without one, that
of the first item head. -/
def announced (image : List Byte) : Nat :=
  if (AmlResImgHead.ofBytes image).magic = amlResImgV1Magic then
    (AmlResImgHead.ofBytes image).imgItemNum
  else (AmlResItemHead.ofBytes image).nums.toNat

/-- The CRC of a file that is not shorter than the offset is always there. -/
theorem calcImgCrc_isSome (fp : Stream) {offset : Nat} (h : offset < fp.data.length) (checkSz : Nat) :
    ∃ crc, calcImgCrc fp offset checkSz = some crc := by
  have hmax : u32 (fp.data.length - offset) ≤ fp.data.length - offset := by
    unfold u32
    omega
  rw [calcImgCrc]
  by_cases hlong : checkSz ≠ 0 ∧ checkSz > u32 (fp.data.length - offset)
  · exact ⟨0, if_pos hlong⟩
  · rw [if_neg hlong]
    generalize hsz : (if checkSz = 0 then u32 (fp.data.length - offset) else checkSz) = sz
    have hle : sz ≤ fp.data.length - offset := by
      rw [← hsz]
      split
      · exact hmax
      · omega
    obtain ⟨crc, hrun, -⟩ := forChunks_inv (B := bufsize) (n := sz)
      (fun (crc : BitVec 32) _ buf => crc32 crc buf) (d := (fp.data.drop offset).take sz)
      (fun _ _ => True) (by decide) (by rw [List.length_take, List.length_drop]; omega)
      (fun _ _ _ _ => trivial) (t := 0) (fp.fseek offset)
      (s := 0xffffffff) (Nat.lt_succ_self sz) (Nat.zero_le sz)
      (List.take_append_drop sz (fp.data.drop offset)).symm trivial
    dsimp only
    rw [hrun]
    exact ⟨crc.toNat, rfl⟩

theorem check_isSome (image : List Byte) (needCheckCrc : Bool) :
    ∃ r, imgUnpackCheckImgHeader image needCheckCrc = some r := by
  unfold imgUnpackCheckImgHeader
  dsimp only
  by_cases hsz : u32 image.length ≤ imgHeadSz
  · rw [if_pos hsz]
    exact ⟨_, rfl⟩
  · have hlen : 4 < image.length := by
      unfold u32 imgHeadSz at hsz
      omega
    rw [if_neg hsz]
    generalize (if itemReadBufSz > u32 image.length then u32 image.length else itemReadBufSz) = n
    have hdata : (Stream.fread ⟨image, 0⟩ n).2.data = image := rfl
    generalize Stream.fread ⟨image, 0⟩ n = read at hdata ⊢
    obtain ⟨crc, hcrc⟩ := calcImgCrc_isSome read.2 (show 4 < _ by rw [hdata]; exact hlen)
      (u32 ((AmlResImgHead.ofBytes read.1).imgSz - 4))
    obtain ⟨ret, hret⟩ : ∃ ret, checkImgCrc read.2 4 (AmlResImgHead.ofBytes read.1).crc
        (u32 ((AmlResImgHead.ofBytes read.1).imgSz - 4)) = some ret := by
      rw [checkImgCrc, hcrc, Option.bind_eq_bind, Option.bind_some]
      split
      · exact ⟨-1, rfl⟩
      · exact ⟨0, rfl⟩
    split
    · exact ⟨_, rfl⟩
    · split
      · split
        · exact ⟨_, rfl⟩
        · split
          · exact ⟨_, rfl⟩
          · cases needCheckCrc with
            | false => exact ⟨_, rfl⟩
            | true =>
              rw [if_pos rfl, hret, Option.bind_eq_bind, Option.bind_some]
              split
              · exact ⟨_, rfl⟩
              · exact ⟨_, rfl⟩
      · split
        · exact ⟨_, rfl⟩
        · exact ⟨_, rfl⟩

section
variable (opens : List Byte → Prop) [DecidablePred opens] (image dir : List Byte)
  (needCheckCrc : Bool) (d : Dir)

/-- The item of some number is found and unpacked. -/
def Delivered (j : Nat) : Prop :=
  ∃ imgVersion buf fp, imgUnpackCheckImgHeader image needCheckCrc = some (.ok (imgVersion, buf, fp)) ∧
    ∃ w, rounds opens imgVersion buf dir j ⟨0, fp, d⟩ = some w ∧ Unpacks opens imgVersion buf dir w

/-- The image is unpacked to a result, and if it is 0, every item that the header announces was
found and has its full size. -/
def Reports : Prop :=
  ∃ ret d', resImgUnpack opens (some image) dir needCheckCrc d = some (ret, d') ∧
    (ret = 0 → ∀ j < announced image, Delivered opens image dir needCheckCrc d j)

/-- The chain of an image whose header is not refused: it ends with an error, or it has the items
that the header announces, and none of these has a size that is not written in full. -/
def Chained : Prop :=
  ∀ imgVersion buf fp, imgUnpackCheckImgHeader image needCheckCrc = some (.ok (imgVersion, buf, fp)) →
    ∃ items fails, chain opens imgVersion buf dir (itemReadBufSz / itemHeadSz) 0 fp =
      some (items, fails) ∧
      (fails = true ∨ (announced image ≤ items.length ∧
        ∀ head ∈ items.take (announced image), Whole head.size))

end

theorem resImgUnpack_ok {opens : List Byte → Prop} [DecidablePred opens] {image buf : List Byte}
    {needCheckCrc : Bool} {imgVersion : Int} {fp : Stream}
    (h : imgUnpackCheckImgHeader image needCheckCrc = some (.ok (imgVersion, buf, fp)))
    (dir : List Byte) (d : Dir) :
    resImgUnpack opens (some image) dir needCheckCrc d =
      unpackLoop opens imgVersion buf dir (itemReadBufSz / itemHeadSz) 0 fp d := by
  rw [resImgUnpack, h]
  rfl

theorem all_getElem_iff {α : Type} {l : List α} {n : Nat} {P : α → Prop} :
    (∀ j < n, ∃ a, l[j]? = some a ∧ P a) ↔ n ≤ l.length ∧ ∀ a ∈ l.take n, P a := by
  constructor
  · intro h
    refine ⟨?_, fun a ha => ?_⟩
    · by_contra hlt
      obtain ⟨a, ha, -⟩ := h l.length (by omega)
      rw [List.getElem?_eq_none (Nat.le_refl _)] at ha
      cases ha
    · obtain ⟨j, hj, rfl⟩ := List.getElem_of_mem ha
      rw [List.length_take] at hj
      obtain ⟨b, hb, hP⟩ := h j (by omega)
      rw [List.getElem_take]
      rw [List.getElem?_eq_getElem (by omega)] at hb
      exact Option.some.inj hb ▸ hP
  · rintro ⟨hn, h⟩ j hj
    refine ⟨l[j], List.getElem?_eq_getElem (by omega), h _ ?_⟩
    exact List.mem_take_iff_getElem.mpr ⟨j, by omega, rfl⟩

/-- **When the result says what was unpacked**. -/
theorem reports_iff (opens : List Byte → Prop) [DecidablePred opens] (image dir : List Byte)
    (needCheckCrc : Bool) (d : Dir) :
    Reports opens image dir needCheckCrc d ↔ Chained opens image dir needCheckCrc := by
  obtain ⟨r, hcheck⟩ := check_isSome image needCheckCrc
  cases r with
  | error e =>
    refine iff_of_true ⟨371, d, ?_, fun h => absurd h (by decide)⟩ fun imgVersion buf fp h => ?_
    · rw [resImgUnpack, hcheck]
      rfl
    · rw [hcheck] at h
      cases h
  | ok start =>
    obtain ⟨imgVersion, buf, fp⟩ := start
    have hdelivered (j : Nat) : Delivered opens image dir needCheckCrc d j ↔
        ∃ w, rounds opens imgVersion buf dir j ⟨0, fp, d⟩ = some w ∧
          Unpacks opens imgVersion buf dir w := by
      constructor
      · rintro ⟨v, b, p, h, hw⟩
        rw [hcheck] at h
        cases h
        exact hw
      · exact fun hw => ⟨imgVersion, buf, fp, hcheck, hw⟩
    have hchained : Chained opens image dir needCheckCrc ↔
        ∃ items fails, chain opens imgVersion buf dir (itemReadBufSz / itemHeadSz) 0 fp =
          some (items, fails) ∧ (fails = true ∨ (announced image ≤ items.length ∧
            ∀ head ∈ items.take (announced image), Whole head.size)) := by
      constructor
      · exact fun h => h imgVersion buf fp hcheck
      · intro h v b p hstart
        rw [hcheck] at hstart
        cases hstart
        exact h
    rw [Reports, resImgUnpack_ok hcheck, hchained]
    rcases unpackLoop_chain opens imgVersion buf dir (itemReadBufSz / itemHeadSz) ⟨0, fp, d⟩ with
      ⟨hc, hu⟩ | ⟨items, ret, d', hc, hu, hret⟩ | ⟨items, d', hc, hu⟩
    · rw [hc, hu]
      exact iff_of_false (by rintro ⟨_, _, h, -⟩; cases h) (by rintro ⟨_, _, h, -⟩; cases h)
    · rw [hc, hu]
      exact iff_of_true ⟨ret, d', rfl, fun h => absurd h hret⟩ ⟨items, true, rfl, .inl rfl⟩
    · have hitems : (∀ j < announced image, Delivered opens image dir needCheckCrc d j) ↔
          announced image ≤ items.length ∧
            ∀ head ∈ items.take (announced image), Whole head.size := by
        rw [← all_getElem_iff]
        refine forall₂_congr fun j _ => ?_
        rw [hdelivered]
        exact rounds_chain _ ⟨0, fp, d⟩ j hc
      rw [hc, hu]
      constructor
      · rintro ⟨ret, d'', h, hall⟩
        cases h
        exact ⟨items, false, rfl, .inr (hitems.mp (hall rfl))⟩
      · rintro ⟨items', fails, h, hcase⟩
        cases h
        exact ⟨0, d', rfl, fun _ => hitems.mpr (hcase.resolve_left Bool.false_ne_true)⟩

/-- An image of version 2 that announces an item and has zeros in the place of its head. -/
def emptyImage : List Byte :=
  (AmlResImgHead.toBytes ⟨0, amlResImgVersionV2, amlResImgV1Magic, 128, 1, 16⟩) ++
    List.replicate 64 0

/-- The result is 0 where nothing was unpacked. -/
theorem resImgUnpack_silent :
    announced emptyImage = 1 ∧
      resImgUnpack Creatable (some emptyImage) (bytes "out") false (fun _ => none) =
        some (0, fun _ => none) ∧
      ¬ Delivered Creatable emptyImage (bytes "out") false (fun _ => none) 0 := by
  have hcheck : imgUnpackCheckImgHeader emptyImage false =
      some (.ok (2, emptyImage, ⟨emptyImage, 128⟩)) := by decide +kernel
  have hhead : imgUnpackGetItemHeader 2 emptyImage 0 ⟨emptyImage, 128⟩ = some none := by decide +kernel
  have hround : unpackRound Creatable 2 emptyImage (bytes "out")
      ⟨0, ⟨emptyImage, 128⟩, fun _ => none⟩ = some (.error (0, fun _ => none)) := by
    rw [unpackRound, hhead]
  refine ⟨by decide +kernel, ?_, ?_⟩
  · have hfuel : itemReadBufSz / itemHeadSz = 1023 + 1 := by decide
    rw [resImgUnpack_ok hcheck, hfuel, unpackLoop, hhead]
  · rintro ⟨v, b, p, h, hw⟩
    rw [hcheck] at h
    cases h
    exact rounds_error 0 hround hw

end VendorAmlogic.ResImg
