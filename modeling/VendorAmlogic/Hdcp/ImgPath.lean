import VendorAmlogic.Hdcp.ImgSum
import VendorAmlogic.Lib.CString

/-!
# Keys from an image

`setImgPath` and `write_hdcp_key` of `systemcontrol/HDCP/HDCPRx22ImgKey.cpp`. The
file is its bytes, and what the allocations and the nodes of the key driver give
is a parameter. A read of bytes that are not in `itemReadBuf`, or more bytes than a
buffer takes, stop the run. The logs are left out, and the refresh behind the
firmware key, which writes no key.
-/

namespace VendorAmlogic.Hdcp.ImgKey

open VendorAmlogic.Lib

/-! ## Model -/

/-- `IMG_HEAD_SZ`. -/
def imgHeadSz : Nat := 24
/-- `ITEM_HEAD_SZ`. -/
def itemHeadSz : Nat := 48
/-- `ITEM_READ_BUF_SZ`. -/
def itemReadBufSz : Nat := 64 * 2 ^ 10

/-- `AML_RES_IMG_V1_MAGIC`. -/
def imgMagic : List Byte := bytes "AML_HDK!"

/-! ### The nodes -/

/-- What the driver does with a key: whether its nodes can be opened, what `write` returns, and
what there is in `exist` then. -/
structure Node where
  attach : Bool
  name : Bool
  opens : Bool
  write : Int
  exist : List Byte

/-- `write_hdcp_key`: its result, and whether the key gets to `write`. -/
def writeHdcpKey (node : Node) (size : Int) : Int × Bool :=
  if !node.attach then (-1, false)
  else if !node.name then (-1, false)
  else if !node.opens then (-1, false)
  else if node.write ≠ size then (-1, true)
  else if strcmpEq (node.exist.take 10) (bytes "0") then (-1, true)
  else (0, true)

/-! ### The items -/

/-- The items that are keys. -/
inductive Key where
  | rxPrivate | rx | rxFw
  deriving DecidableEq

/-- `HDCP_RX_PRIVATE`, `HDCP_RX` and `HDCP_RX_FW`. -/
def Key.itemName : Key → List Byte
  | rxPrivate => bytes "hdcp22_rx_private"
  | rx => bytes "hdcp2_rx"
  | rxFw => bytes "extractedKey"

/-- The name that the key is written under. -/
def Key.keyName : Key → List Byte
  | rxPrivate => bytes "hdcp22_rx_private"
  | rx => bytes "hdcp2_rx"
  | rxFw => bytes "hdcp22_rx_fw"

/-- The bits the other way round. -/
def generalDataChange (input : Byte) : Byte :=
  (List.range 8).foldl
    (fun result i =>
      let bit : Byte := 1 <<< (7 - i)
      if input &&& 1 <<< i ≠ 0 then result ||| bit else result &&& ~~~bit)
    0

def hdcp2DataDecryption (input : List Byte) : List Byte := input.map generalDataChange

/-- What is written of the bytes of the item. -/
def Key.plain : Key → List Byte → List Byte
  | rxPrivate => hdcp2DataDecryption
  | _ => id

/-- A key that gets to `write`, with the number of its item. -/
structure Written where
  num : Nat
  keyName : List Byte
  data : List Byte
  deriving DecidableEq

structure System where
  /-- `malloc` of `itemReadBuf`. -/
  readBuf : Bool
  /-- The buffer of `calc_img_crc`. -/
  crcBuf : Option Mem
  tmpbuffer : Nat → Bool
  writebuffer : Nat → Bool
  node : Nat → Node

/-- The buffers for the data of an item. -/
def System.buffers (sys : System) (num : Nat) : Key → Bool
  | .rxPrivate => sys.tmpbuffer num && sys.writebuffer num
  | _ => sys.writebuffer num

def itemAt (num : Nat) : Nat := imgHeadSz + itemHeadSz * num

section Model

variable (sys : System) (fdImg : List Byte) (itemReadBuf : List Byte)

/-- The comparisons of the name of an item. -/
def keyOf (num : Nat) : Option (Option Key) := do
  let name := itemAt num + 16
  if ← readString itemReadBuf name (Key.itemName .rxPrivate ++ [0]) then some (some .rxPrivate)
  else if ← readString itemReadBuf name (Key.itemName .rx ++ [0]) then some (some .rx)
  else if ← readString itemReadBuf name (Key.itemName .rxFw ++ [0]) then some (some .rxFw)
  else some none

/-- An item that is a key, with what is written. The buffers have `dataSz + 4` bytes. -/
def importKey (num : Nat) (key : Key) (dataSz dataOffset : Nat) : Option (Int × List Written) :=
  if !sys.buffers num key then some (-1, [])
  else
    let data := ((Stream.mk fdImg 0).fseek dataOffset |>.fread dataSz).1
    if u32 (dataSz + 4) < data.length then none
    else if data.length ≠ dataSz then some (-1, [])
    else
      let result := writeHdcpKey (sys.node num) (i32 dataSz)
      some (result.1, if result.2 then [⟨num, key.keyName, key.plain data⟩] else [])

/-- The body of the loop; `none` for an item that is no key. -/
def importItem (num : Nat) : Option (Option (Int × List Written)) := do
  let dataSz ← readWord itemReadBuf (itemAt num + 4)
  let dataOffset ← readWord itemReadBuf (itemAt num + 8)
  match ← keyOf itemReadBuf num with
  | none => some none
  | some key => some <$> importKey sys fdImg num key dataSz dataOffset

def itemLoop : Nat → Nat → Int → List Written → Option (Int × List Written)
  | 0, _, result, out => some (result, out)
  | left + 1, num, result, out => do
    match ← importItem sys fdImg itemReadBuf num with
    | none => itemLoop left (num + 1) result out
    | some r =>
      if r.1 ≠ 0 then some (-1, out ++ r.2) else itemLoop left (num + 1) r.1 (out ++ r.2)

end Model

/-- `setImgPath`, of the file that is opened: its result, and the keys. -/
def setImgPath (sys : System) (fdImg : Option (List Byte)) : Option (Int × List Written) :=
  match fdImg with
  | none => some (-1, [])
  | some file =>
    if !sys.readBuf then some (-1, [])
    else
      let head := (Stream.mk file 0).fread imgHeadSz
      let crc := wordAt head.1 0
      let imgSz := wordAt head.1 16
      let imgItemNum := wordAt head.1 20
      if head.1.length ≠ imgHeadSz then some (-1, [])
      else if (head.1.drop 8).take 8 ≠ imgMagic then some (-1, [])
      else if BitVec.ofNat 32 crc ≠ calcImgCrc (some file) sys.crcBuf 4 (u32 (imgSz - 4)) then
        some (-1, [])
      else
        let size := i32 (imgItemNum * itemHeadSz)
        let heads := (head.2.fseek imgHeadSz).fread (u64 size)
        if itemReadBufSz < imgHeadSz + heads.1.length then none
        else if i32 heads.1.length ≠ size then some (-1, [])
        else itemLoop sys file (head.1 ++ heads.1) imgItemNum 0 (-1) []

/-! ## What an image is -/

section Image

variable (sys : System) (file : List Byte) (i : Nat) (key : Key)

def crcField : BitVec 32 := BitVec.ofNat 32 (wordAt file 0)
def imgSz : Nat := wordAt file 16
def imgItemNum : Nat := wordAt file 20

/-- The bytes of item heads that are asked for, an `int`. -/
def headsSz : Int := i32 (imgItemNum file * itemHeadSz)

/-- What comes into `itemReadBuf`. -/
def readHeads : List Byte := file.take (imgHeadSz + u64 (headsSz file))

def dataSz : Nat := wordAt (readHeads file) (itemAt i + 4)
def dataOffset : Nat := wordAt (readHeads file) (itemAt i + 8)

/-- The bytes of an item, as far as the file has them. -/
def itemData : List Byte := (file.drop (dataOffset file i)).take (dataSz file i)

def IsKey : Prop := keyOf (readHeads file) i = some (some key)

def written : Written := ⟨i, key.keyName, key.plain (itemData file i)⟩

/-- The item has its buffers and all of its bytes. -/
def Loaded : Prop := sys.buffers i key = true ∧ (itemData file i).length = dataSz file i

/-- The item gets to `write`. -/
def Writes : Prop :=
  Loaded sys file i key ∧ (sys.node i).attach = true ∧ (sys.node i).name = true ∧
    (sys.node i).opens = true

/-- The item is written, and the driver says so. -/
def Stored : Prop :=
  Loaded sys file i key ∧ (writeHdcpKey (sys.node i) (i32 (dataSz file i))).1 = 0

/-- More bytes than the buffer takes. -/
def Spills : Prop :=
  sys.buffers i key = true ∧ u32 (dataSz file i + 4) < (itemData file i).length

/-- The head is not among what has been read, or the data spills. -/
def Stray : Prop :=
  (readHeads file).length < itemAt i + 12 ∨ keyOf (readHeads file) i = none ∨
    ∃ key, IsKey file i key ∧ Spills sys file i key

/-- The loop goes on behind the item. -/
def GoesOn : Prop := ¬ Stray sys file i ∧ ∀ key, IsKey file i key → Stored sys file i key

end Image

/-- What an image has to be for a key to be written. -/
structure Gate (file : List Byte) : Prop where
  magic : (file.drop 8).take 8 = imgMagic
  size : 4 ≤ imgSz file ∧ imgSz file ≤ file.length
  sum : wordSum ((file.drop 4).take (imgSz file - 4)) = crcField file
  heads : imgHeadSz + itemHeadSz * imgItemNum file ≤ itemReadBufSz

/-- What is written is an item of the file. -/
def ItemOf (file : List Byte) (w : Written) : Prop :=
  w.num < imgItemNum file ∧ dataOffset file w.num + dataSz file w.num ≤ file.length ∧
    ∃ key, IsKey file w.num key ∧ w = written file w.num key

/-- The buffers are kept to, a key is written of an image that is what it has to be only, and with
0 every item that is a key has been. -/
def Right (sys : System) (file : List Byte) : Option (Int × List Written) → Prop
  | none => False
  | some (result, out) =>
    (out ≠ [] → Gate file) ∧ (∀ w ∈ out, ItemOf file w) ∧
      (result = 0 → ∀ i < imgItemNum file, ∀ key, IsKey file i key →
        Stored sys file i key ∧ written file i key ∈ out)

/-! ## One item -/

section Item

variable {sys : System} {file : List Byte} {i : Nat} {key : Key}

theorem isKey_unique {key' : Key} (h : IsKey file i key) (h' : IsKey file i key') : key = key' :=
  Option.some.inj (Option.some.inj (h.symm.trans h'))

theorem Stored.writes (h : Stored sys file i key) : Writes sys file i key := by
  obtain ⟨hload, hzero⟩ := h
  refine ⟨hload, ?_⟩
  unfold writeHdcpKey at hzero
  split at hzero
  · cases hzero
  split at hzero
  · cases hzero
  split at hzero
  · cases hzero
  rename_i hattach hname hopens
  simp only [Bool.not_eq_true', Bool.not_eq_false] at hattach hname hopens
  exact ⟨hattach, hname, hopens⟩

/-- The key gets to `write` when the nodes before it can be opened. -/
theorem writeHdcpKey_snd (node : Node) (size : Int) :
    (writeHdcpKey node size).2 = (node.attach && node.name && node.opens) := by
  unfold writeHdcpKey
  cases node.attach <;> cases node.name <;> cases node.opens <;> try rfl
  simp only [Bool.not_true, Bool.false_eq_true, if_false]
  split
  · rfl
  · split <;> rfl

theorem importKey_buffers (hbuf : sys.buffers i key = true) :
    importKey sys file i key (dataSz file i) (dataOffset file i) =
      if u32 (dataSz file i + 4) < (itemData file i).length then none
      else if (itemData file i).length ≠ dataSz file i then some (-1, [])
      else
        some ((writeHdcpKey (sys.node i) (i32 (dataSz file i))).1,
          if (writeHdcpKey (sys.node i) (i32 (dataSz file i))).2 then [written file i key]
          else []) := by
  have hread (offset size : Nat) : (((Stream.mk file 0).fseek offset).fread size).1 =
      (file.drop offset).take size := rfl
  unfold importKey written
  rw [hbuf]
  refine (if_neg Bool.false_ne_true).trans ?_
  dsimp only
  rw [hread]
  rfl

theorem importKey_spills (h : Spills sys file i key) :
    importKey sys file i key (dataSz file i) (dataOffset file i) = none := by
  rw [importKey_buffers h.1, if_pos h.2]

/-- A key that does not spill: its result, and whether it is written. -/
theorem importKey_spec (h : ¬ Spills sys file i key) :
    ∃ r out, importKey sys file i key (dataSz file i) (dataOffset file i) = some (r, out) ∧
      (r = 0 ↔ Stored sys file i key) ∧
      ∀ w, w ∈ out ↔ Writes sys file i key ∧ w = written file i key := by
  have hnothing (hload : ¬ Loaded sys file i key) (w : Written) :
      w ∈ [] ↔ Writes sys file i key ∧ w = written file i key :=
    iff_of_false List.not_mem_nil fun hw => hload hw.1.1
  have hfails (hload : ¬ Loaded sys file i key) : (-1 : Int) = 0 ↔ Stored sys file i key :=
    iff_of_false (by decide) fun hs => hload hs.1
  by_cases hbuf : sys.buffers i key = true
  · rw [importKey_buffers hbuf, if_neg fun hlt => h ⟨hbuf, hlt⟩]
    by_cases hlen : (itemData file i).length = dataSz file i
    · have hload : Loaded sys file i key := ⟨hbuf, hlen⟩
      rw [if_neg (not_not_intro hlen)]
      refine ⟨_, _, rfl, (and_iff_right hload).symm, fun w => ?_⟩
      rw [writeHdcpKey_snd]
      have hwrites : ((sys.node i).attach && (sys.node i).name && (sys.node i).opens) = true ↔
          Writes sys file i key := by
        rw [Bool.and_eq_true, Bool.and_eq_true, and_assoc]
        exact (and_iff_right hload).symm
      rw [← hwrites]
      split
      · rename_i hw
        rw [and_iff_right hw]
        exact List.mem_singleton
      · rename_i hw
        exact iff_of_false List.not_mem_nil fun hc => hw hc.1
    · have hload : ¬ Loaded sys file i key := fun hl => hlen hl.2
      rw [if_pos hlen]
      exact ⟨_, _, rfl, hfails hload, hnothing hload⟩
  · have hload : ¬ Loaded sys file i key := fun hl => hbuf hl.1
    unfold importKey
    rw [Bool.eq_false_iff.mpr hbuf]
    exact ⟨_, _, rfl, hfails hload, hnothing hload⟩

theorem importItem_eq (h : ¬ (readHeads file).length < itemAt i + 12) :
    importItem sys file (readHeads file) i =
      (keyOf (readHeads file) i).bind fun
        | none => some none
        | some key => some <$> importKey sys file i key (dataSz file i) (dataOffset file i) := by
  have hsz : readWord (readHeads file) (itemAt i + 4) = some (dataSz file i) :=
    readWord_of_le (by omega)
  have hoffset : readWord (readHeads file) (itemAt i + 8) = some (dataOffset file i) :=
    readWord_of_le (by omega)
  unfold importItem
  rw [hsz, hoffset]
  generalize dataSz file i = size, dataOffset file i = offset, keyOf (readHeads file) i = found
  rcases found with _ | _ | key <;> rfl

theorem importItem_stray (h : Stray sys file i) :
    importItem sys file (readHeads file) i = none := by
  by_cases hhead : (readHeads file).length < itemAt i + 12
  · have hoffset : readWord (readHeads file) (itemAt i + 8) = none := readWord_of_lt (by omega)
    unfold importItem
    rw [hoffset]
    cases readWord (readHeads file) (itemAt i + 4) <;> rfl
  · rw [importItem_eq hhead]
    rcases h.resolve_left hhead with hname | ⟨key, hkey, hspills⟩
    · rw [hname]
      rfl
    · rw [show keyOf (readHeads file) i = some (some key) from hkey]
      show some <$> importKey sys file i key (dataSz file i) (dataOffset file i) = none
      rw [importKey_spills hspills]
      rfl

/-- An item is passed by or imported. -/
theorem importItem_spec (h : ¬ Stray sys file i) :
    (importItem sys file (readHeads file) i = some none ∧ ∀ key, ¬ IsKey file i key) ∨
      ∃ key r out, IsKey file i key ∧
        importItem sys file (readHeads file) i = some (some (r, out)) ∧
        (r = 0 ↔ Stored sys file i key) ∧
        ∀ w, w ∈ out ↔ Writes sys file i key ∧ w = written file i key := by
  rw [importItem_eq fun hlt => h (.inl hlt)]
  cases hname : keyOf (readHeads file) i with
  | none => exact absurd (.inr (.inl hname)) h
  | some found =>
    cases found with
    | none =>
      refine .inl ⟨rfl, fun key hkey => ?_⟩
      exact absurd (Option.some.inj (hname.symm.trans hkey)) (Option.some_ne_none key).symm
    | some key =>
      have hfits : ¬ Spills sys file i key := fun hspills =>
        h (.inr (.inr ⟨key, hname, hspills⟩))
      obtain ⟨r, out, hkey, hzero, hmem⟩ := importKey_spec hfits
      refine .inr ⟨key, r, out, hname, ?_, hzero, hmem⟩
      show some <$> importKey sys file i key (dataSz file i) (dataOffset file i) = _
      rw [hkey]
      rfl

end Item

/-! ## The loop -/

section Loop

variable {sys : System} {file : List Byte} {num left : Nat} {out out' : List Written}

/-- What the items from `num` up to `m` add to what is written. -/
def Wrote (sys : System) (file : List Byte) (num m : Nat) (out out' : List Written) : Prop :=
  ∀ w, w ∈ out' ↔ w ∈ out ∨
    ∃ i key, (num ≤ i ∧ i < m) ∧ IsKey file i key ∧ Writes sys file i key ∧ w = written file i key

theorem Wrote.refl (sys : System) (file : List Byte) (num : Nat) (out : List Written) :
    Wrote sys file num num out out := by
  refine fun w => ⟨.inl, fun h => h.resolve_right ?_⟩
  rintro ⟨i, key, hi, -⟩
  omega

theorem Wrote.trans {m k : Nat} {out'' : List Written} (h : Wrote sys file num m out out')
    (h' : Wrote sys file m k out' out'') (hle : num ≤ m) (hle' : m ≤ k) :
    Wrote sys file num k out out'' := by
  intro w
  rw [h' w, h w, or_assoc]
  refine or_congr_right ⟨?_, ?_⟩
  · rintro (⟨i, key, hi, hw⟩ | ⟨i, key, hi, hw⟩)
    · exact ⟨i, key, by omega, hw⟩
    · exact ⟨i, key, by omega, hw⟩
  · rintro ⟨i, key, hi, hw⟩
    by_cases hm : i < m
    · exact .inl ⟨i, key, ⟨hi.1, hm⟩, hw⟩
    · exact .inr ⟨i, key, by omega, hw⟩

/-- One item that is no key. -/
theorem wrote_nothing (h : ∀ key, ¬ IsKey file num key) (out : List Written) :
    Wrote sys file num (num + 1) out out := by
  refine fun w => ⟨.inl, fun hw => hw.resolve_right ?_⟩
  rintro ⟨i, key, hi, hkey, -⟩
  obtain rfl : i = num := by omega
  exact h key hkey

/-- One item that is a key. -/
theorem wrote_key {key : Key} (hkey : IsKey file num key)
    (h : ∀ w, w ∈ out' ↔ Writes sys file num key ∧ w = written file num key) :
    Wrote sys file num (num + 1) out (out ++ out') := by
  intro w
  rw [List.mem_append, h w]
  refine or_congr_right ⟨fun hw => ⟨num, key, by omega, hkey, hw⟩, ?_⟩
  rintro ⟨i, key', hi, hkey', hw⟩
  obtain rfl : i = num := by omega
  rw [isKey_unique hkey hkey']
  exact hw

theorem itemLoop_stray (h : Stray sys file num) (result : Int) (out : List Written) :
    itemLoop sys file (readHeads file) (left + 1) num result out = none := by
  rw [itemLoop, importItem_stray h]
  rfl

theorem itemLoop_goesOn (h : GoesOn sys file num) (left : Nat) (result : Int)
    (out : List Written) :
    ∃ result' out', Wrote sys file num (num + 1) out out' ∧
      itemLoop sys file (readHeads file) (left + 1) num result out =
        itemLoop sys file (readHeads file) left (num + 1) result' out' := by
  obtain ⟨hstray, hstored⟩ := h
  rcases importItem_spec hstray with ⟨hitem, hno⟩ | ⟨key, r, out', hkey, hitem, hzero, hmem⟩
  · refine ⟨result, out, wrote_nothing hno out, ?_⟩
    rw [itemLoop, hitem]
    rfl
  · refine ⟨r, out ++ out', wrote_key hkey hmem, ?_⟩
    rw [itemLoop, hitem]
    exact if_neg (not_not_intro (hzero.mpr (hstored key hkey)))

theorem itemLoop_stops (hstray : ¬ Stray sys file num) (h : ¬ GoesOn sys file num) (result : Int)
    (out : List Written) :
    ∃ out', Wrote sys file num (num + 1) out out' ∧
      itemLoop sys file (readHeads file) (left + 1) num result out = some (-1, out') := by
  rcases importItem_spec hstray with ⟨-, hno⟩ | ⟨key, r, out', hkey, hitem, hzero, hmem⟩
  · exact absurd ⟨hstray, fun key hkey => absurd hkey (hno key)⟩ h
  · refine ⟨out ++ out', wrote_key hkey hmem, ?_⟩
    have hfails : r ≠ 0 := fun hr => h ⟨hstray, fun key' hkey' => by
      rw [← isKey_unique hkey hkey']
      exact hzero.mp hr⟩
    rw [itemLoop, hitem]
    exact if_pos hfails

/-- **The loop** goes on to the end or up to an item behind which it does not. -/
theorem itemLoop_spec (left num : Nat) (result : Int) (out : List Written) :
    ((∀ i, num ≤ i → i < num + left → GoesOn sys file i) ∧
      ∃ result' out', Wrote sys file num (num + left) out out' ∧
        itemLoop sys file (readHeads file) left num result out = some (result', out')) ∨
    ∃ k, (num ≤ k ∧ k < num + left) ∧ (∀ i, num ≤ i → i < k → GoesOn sys file i) ∧
      ¬ GoesOn sys file k ∧
      ((Stray sys file k ∧ itemLoop sys file (readHeads file) left num result out = none) ∨
        (¬ Stray sys file k ∧ ∃ out', Wrote sys file num (k + 1) out out' ∧
          itemLoop sys file (readHeads file) left num result out = some (-1, out'))) := by
  induction left generalizing num result out with
  | zero =>
    exact .inl ⟨fun i hi hlt => absurd hlt (by omega), result, out, .refl sys file num out, rfl⟩
  | succ left ih =>
    by_cases hgo : GoesOn sys file num
    · obtain ⟨result', out', hwrote, hloop⟩ := itemLoop_goesOn hgo left result out
      have hcons {m : Nat} (h : ∀ i, num + 1 ≤ i → i < m → GoesOn sys file i) (i : Nat)
          (hi : num ≤ i) (hlt : i < m) : GoesOn sys file i := by
        rcases Nat.eq_or_lt_of_le hi with rfl | hi
        · exact hgo
        · exact h i hi hlt
      have hend : num + (left + 1) = num + 1 + left := by omega
      rw [hloop, hend]
      rcases ih (num + 1) result' out' with
        ⟨hall, result'', out'', hrest, heq⟩ | ⟨k, hk, hall, hstops, hcase⟩
      · exact .inl ⟨hcons hall, result'', out'', hwrote.trans hrest (by omega) (by omega), heq⟩
      · refine .inr ⟨k, by omega, hcons hall, hstops, hcase.imp_right ?_⟩
        rintro ⟨hstray, out'', hrest, heq⟩
        exact ⟨hstray, out'', hwrote.trans hrest (by omega) (by omega), heq⟩
    · refine .inr ⟨num, by omega, fun i hi hlt => absurd hlt (by omega), hgo, ?_⟩
      by_cases hstray : Stray sys file num
      · exact .inl ⟨hstray, itemLoop_stray hstray result out⟩
      · exact .inr ⟨hstray, itemLoop_stops hstray hgo result out⟩

end Loop

/-! ## The whole image -/

section Whole

variable (sys : System) (file : List Byte)

/-- The bytes that are to be summed, of those from 4 on. -/
def checkSz : Nat := u32 (imgSz file - 4)

/-- The bytes from 4 on, as far as they are counted. -/
def maxLen : Nat := (file.length - 4) % 2 ^ 32

/-- The sum that is compared with the field: there is none without a buffer or with a size above
the count, and a size of zero stands for all. -/
def checkedSum : BitVec 32 :=
  if sys.crcBuf = none ∨ maxLen file < checkSz file then 0
  else wordSum ((file.drop 4).take (if checkSz file = 0 then maxLen file else checkSz file))

/-- The head of the image passes. -/
def Accepted : Prop :=
  sys.readBuf = true ∧ imgHeadSz ≤ file.length ∧ (file.drop 8).take 8 = imgMagic ∧
    crcField file = checkedSum sys file

instance : Decidable (Accepted sys file) := inferInstanceAs (Decidable (_ ∧ _ ∧ _ ∧ _))

/-- The bytes of item heads that are asked for are all there. -/
def HeadsRead : Prop := 0 ≤ headsSz file ∧ imgHeadSz + headsSz file ≤ file.length

instance : Decidable (HeadsRead file) := inferInstanceAs (Decidable (_ ∧ _))

/-- The loop gets to an item. -/
def Reached (i : Nat) : Prop :=
  Accepted sys file ∧ HeadsRead file ∧ i < imgItemNum file ∧ ∀ j < i, GoesOn sys file j

/-- An image whose field is not 0 has bytes to sum; one whose field is 0 has a size within the file,
and where there is no sum to be had its words are 0 together. -/
def Vouched : Prop :=
  (crcField file ≠ 0 → 4 < imgSz file) ∧
    (crcField file = 0 → 4 ≤ imgSz file ∧ imgSz file ≤ file.length ∧
      (sys.crcBuf = none ∨ maxLen file < imgSz file - 4 →
        wordSum ((file.drop 4).take (imgSz file - 4)) = 0))

/-- An image that the function is careful enough for. -/
structure Careful : Prop where
  /-- The heads are not more than the buffer takes. -/
  heads : Accepted sys file → (readHeads file).length ≤ itemReadBufSz
  stays : ∀ i, Reached sys file i → ¬ Stray sys file i
  /-- A key gets to `write` from an image that the sum speaks for, with a number of items that has
  not been cut, and with an offset in the file even when it has no bytes. -/
  vouched : ∀ i key, Reached sys file i → IsKey file i key → Writes sys file i key →
    Vouched sys file ∧ imgHeadSz + itemHeadSz * imgItemNum file ≤ itemReadBufSz ∧
      dataOffset file i ≤ file.length

variable {sys : System} {file : List Byte}

theorem calcImgCrc_checked (sys : System) (h : imgHeadSz ≤ file.length) :
    calcImgCrc (some file) sys.crcBuf 4 (checkSz file) = checkedSum sys file := by
  unfold imgHeadSz at h
  unfold checkedSum
  cases sys.crcBuf with
  | none => exact (if_pos (.inl rfl)).symm
  | some buf =>
    by_cases hmax : maxLen file < checkSz file
    · rw [if_pos (.inr hmax)]
      unfold calcImgCrc
      dsimp only
      rw [maxCheckLen_eq (by omega), if_neg (by omega)]
      exact if_pos hmax
    · rw [if_neg fun h => h.elim (Option.some_ne_none buf) hmax]
      by_cases hzero : checkSz file = 0
      · rw [if_pos hzero, hzero]
        exact calcImgCrc_zero (by omega)
      · rw [if_neg hzero]
        unfold maxLen at hmax
        exact calcImgCrc_eq (by omega) (by omega) (by omega)

theorem checkSz_of_le (h : 4 ≤ imgSz file) : checkSz file = imgSz file - 4 :=
  u32_sub h (wordAt_lt file 16)

/-- **The gate** of an image whose head passes. -/
theorem gate_iff (h : Accepted sys file) :
    Gate file ↔ Vouched sys file ∧ imgHeadSz + itemHeadSz * imgItemNum file ≤ itemReadBufSz := by
  obtain ⟨-, hlen, hmagic, hcrc⟩ := h
  unfold imgHeadSz at hlen
  have hempty : wordSum ((file.drop 4).take 0) = 0 := rfl
  constructor
  · rintro ⟨-, hsize, hsum, hheads⟩
    refine ⟨⟨fun hne => ?_, fun hz => ⟨hsize.1, hsize.2, fun _ => hsum.trans hz⟩⟩, hheads⟩
    by_contra hle
    have hfour : imgSz file - 4 = 0 := by omega
    rw [hfour, hempty] at hsum
    exact hne hsum.symm
  · rintro ⟨⟨hne, hz⟩, hheads⟩
    by_cases hzero : crcField file = 0
    · obtain ⟨hge, hle, hnone⟩ := hz hzero
      refine ⟨hmagic, ⟨hge, hle⟩, ?_, hheads⟩
      by_cases hsum : sys.crcBuf = none ∨ maxLen file < imgSz file - 4
      · rw [hnone hsum, hzero]
      · by_cases hfour : imgSz file - 4 = 0
        · rw [hfour, hempty, hzero]
        · rw [hcrc, checkedSum, checkSz_of_le hge, if_neg hsum, if_neg hfour]
    · have hgt := hne hzero
      rw [checkedSum, checkSz_of_le hgt.le] at hcrc
      by_cases hsum : sys.crcBuf = none ∨ maxLen file < imgSz file - 4
      · rw [if_pos hsum] at hcrc
        exact absurd hcrc hzero
      · rw [if_neg hsum, if_neg (by omega)] at hcrc
        have hmax : ¬ maxLen file < imgSz file - 4 := fun hlt => hsum (.inr hlt)
        unfold maxLen at hmax
        exact ⟨hmagic, ⟨by omega, by omega⟩, hcrc.symm, hheads⟩

theorem length_readHeads (h : imgHeadSz ≤ file.length) :
    (readHeads file).length =
      imgHeadSz + ((file.drop imgHeadSz).take (u64 (headsSz file))).length := by
  unfold readHeads
  rw [List.length_take, List.length_take, List.length_drop]
  omega

/-- A read that is not cut gives the bytes that are asked for when the file has them. -/
theorem headsRead_iff (h : imgHeadSz ≤ file.length)
    (hle : (readHeads file).length ≤ itemReadBufSz) :
    i32 ((file.drop imgHeadSz).take (u64 (headsSz file))).length = headsSz file ↔
      HeadsRead file := by
  have hlen := length_readHeads h
  have hlt := i32_lt (imgItemNum file * itemHeadSz)
  change headsSz file < 2 ^ 31 at hlt
  have hread : ((file.drop imgHeadSz).take (u64 (headsSz file))).length =
      min (u64 (headsSz file)) (file.length - imgHeadSz) := by
    rw [List.length_take, List.length_drop]
  rw [i32_eq_self (by unfold itemReadBufSz at hle; omega) (by unfold itemReadBufSz at hle; omega)]
  unfold HeadsRead
  by_cases hpos : 0 ≤ headsSz file
  · have hcast := u64_cast hpos (by omega)
    omega
  · omega

/-- What the function does with a file. -/
theorem setImgPath_some (sys : System) (file : List Byte) :
    setImgPath sys (some file) =
      if Accepted sys file then
        if itemReadBufSz < (readHeads file).length then none
        else if HeadsRead file then
          itemLoop sys file (readHeads file) (imgItemNum file) 0 (-1) []
        else some (-1, [])
      else some (-1, []) := by
  have hhead : ((Stream.mk file 0).fread imgHeadSz).1 = file.take imgHeadSz := rfl
  have hmagic : ((file.take imgHeadSz).drop 8).take 8 = (file.drop 8).take 8 := by
    rw [List.drop_take, List.take_take]
    rfl
  have hheads (size : Nat) :
      ((((Stream.mk file 0).fread imgHeadSz).2.fseek imgHeadSz).fread size).1 =
        (file.drop imgHeadSz).take size := rfl
  have hcrc : wordAt (file.take imgHeadSz) 0 = wordAt file 0 := wordAt_take (by decide)
  have hsize : wordAt (file.take imgHeadSz) 16 = imgSz file := wordAt_take (by decide)
  have hnum : wordAt (file.take imgHeadSz) 20 = imgItemNum file := wordAt_take (by decide)
  have hasked : i32 (imgItemNum file * itemHeadSz) = headsSz file := rfl
  unfold setImgPath
  dsimp only
  rw [hhead, hheads, hcrc, hsize, hnum, hmagic, hasked]
  by_cases hlen : imgHeadSz ≤ file.length
  · have hin : (file.take imgHeadSz).length = imgHeadSz := List.length_take_of_le hlen
    have htake : file.take imgHeadSz ++ (file.drop imgHeadSz).take (u64 (headsSz file)) =
        readHeads file := List.take_add.symm
    have hsum := calcImgCrc_checked sys hlen
    unfold checkSz at hsum
    have hfield : BitVec.ofNat 32 (wordAt file 0) = crcField file := rfl
    rw [if_neg (not_not_intro hin), hsum, htake, ← length_readHeads hlen, hfield]
    by_cases hacc : Accepted sys file
    · obtain ⟨hbuf, -, hmark, hpass⟩ := id hacc
      rw [if_pos hacc, hbuf, if_neg (not_not_intro hmark), if_neg (not_not_intro hpass)]
      refine (if_neg Bool.false_ne_true).trans ?_
      by_cases hle : (readHeads file).length ≤ itemReadBufSz
      · rw [if_neg hle.not_gt, if_neg hle.not_gt]
        by_cases hread : HeadsRead file
        · rw [if_neg (not_not_intro ((headsRead_iff hlen hle).mpr hread)), if_pos hread]
        · rw [if_pos fun heq => hread ((headsRead_iff hlen hle).mp heq), if_neg hread]
      · rw [if_pos (not_le.mp hle), if_pos (not_le.mp hle)]
    · rw [if_neg hacc]
      cases hbuf : sys.readBuf with
      | false => rfl
      | true =>
        refine (if_neg Bool.false_ne_true).trans ?_
        by_cases hmark : (file.drop 8).take 8 = imgMagic
        · rw [if_neg (not_not_intro hmark), if_pos fun hpass => hacc ⟨hbuf, hlen, hmark, hpass⟩]
        · rw [if_pos hmark]
  · have hshort : (file.take imgHeadSz).length ≠ imgHeadSz := by
      rw [List.length_take]
      omega
    rw [if_pos hshort, ite_self, if_neg fun hacc : Accepted sys file => hlen hacc.2.1]

/-- Items from the first on that are gone on behind, up to `m`: what is written of them is right
just when the image speaks for those that are. -/
theorem wrote_right_iff (hacc : Accepted sys file) {m : Nat} {out : List Written}
    (hle : m ≤ imgItemNum file) (hwrote : Wrote sys file 0 m [] out) :
    ((out ≠ [] → Gate file) ∧ ∀ w ∈ out, ItemOf file w) ↔
      ∀ i key, i < m → IsKey file i key → Writes sys file i key →
        Vouched sys file ∧ imgHeadSz + itemHeadSz * imgItemNum file ≤ itemReadBufSz ∧
          dataOffset file i ≤ file.length := by
  have hmem (w : Written) : w ∈ out ↔ ∃ i key, (0 ≤ i ∧ i < m) ∧ IsKey file i key ∧
      Writes sys file i key ∧ w = written file i key :=
    (hwrote w).trans (or_iff_right List.not_mem_nil)
  constructor
  · rintro ⟨hgate, hitems⟩ i key hi hkey hwrites
    have hw : written file i key ∈ out :=
      (hmem _).mpr ⟨i, key, ⟨Nat.zero_le i, hi⟩, hkey, hwrites, rfl⟩
    obtain ⟨hvouched, hfits⟩ := (gate_iff hacc).mp (hgate (List.ne_nil_of_mem hw))
    have hin : dataOffset file i + dataSz file i ≤ file.length := (hitems _ hw).2.1
    exact ⟨hvouched, hfits, by omega⟩
  · intro h
    refine ⟨fun hne => ?_, fun w hw => ?_⟩
    · obtain ⟨w, hw⟩ := List.exists_mem_of_ne_nil out hne
      obtain ⟨i, key, hi, hkey, hwrites, -⟩ := (hmem w).mp hw
      obtain ⟨hvouched, hfits, -⟩ := h i key hi.2 hkey hwrites
      exact (gate_iff hacc).mpr ⟨hvouched, hfits⟩
    · obtain ⟨i, key, hi, hkey, hwrites, rfl⟩ := (hmem w).mp hw
      obtain ⟨-, -, hoffset⟩ := h i key hi.2 hkey hwrites
      have hlen : (itemData file i).length = dataSz file i := hwrites.1.2
      unfold itemData at hlen
      rw [List.length_take, List.length_drop] at hlen
      exact ⟨hi.2.trans_le hle, show dataOffset file i + dataSz file i ≤ _ by omega, key, hkey, rfl⟩

/-- **The loop** over all items. -/
theorem itemLoop_right_iff (hacc : Accepted sys file) (hread : HeadsRead file) :
    Right sys file (itemLoop sys file (readHeads file) (imgItemNum file) 0 (-1) []) ↔
      (∀ i, Reached sys file i → ¬ Stray sys file i) ∧
        ∀ i key, Reached sys file i → IsKey file i key → Writes sys file i key →
          Vouched sys file ∧ imgHeadSz + itemHeadSz * imgItemNum file ≤ itemReadBufSz ∧
            dataOffset file i ≤ file.length := by
  rcases itemLoop_spec (imgItemNum file) 0 (-1) [] with
    ⟨hall, result, out, hwrote, hloop⟩ | ⟨k, ⟨-, hk⟩, hall, hstops, hcase⟩
  · rw [Nat.zero_add] at hall hwrote
    have hreached (i : Nat) : Reached sys file i ↔ i < imgItemNum file :=
      ⟨fun h => h.2.2.1, fun hi =>
        ⟨hacc, hread, hi, fun j hj => hall j (Nat.zero_le j) (hj.trans hi)⟩⟩
    have hmem (i : Nat) (hi : i < imgItemNum file) (key : Key) (hkey : IsKey file i key) :
        Stored sys file i key ∧ written file i key ∈ out := by
      have hstored := (hall i (Nat.zero_le i) hi).2 key hkey
      have hw := (hwrote (written file i key)).mpr
        (.inr ⟨i, key, ⟨Nat.zero_le i, hi⟩, hkey, hstored.writes, rfl⟩)
      exact ⟨hstored, hw⟩
    have hwritten := wrote_right_iff hacc le_rfl hwrote
    simp only [hloop, hreached]
    constructor
    · rintro ⟨hgate, hitems, -⟩
      exact ⟨fun i hi => (hall i (Nat.zero_le i) hi).1, hwritten.mp ⟨hgate, hitems⟩⟩
    · rintro ⟨-, hvouched⟩
      obtain ⟨hgate, hitems⟩ := hwritten.mpr hvouched
      exact ⟨hgate, hitems, fun _ => hmem⟩
  · rw [Nat.zero_add] at hk
    have hreached (i : Nat) : Reached sys file i ↔ i < k + 1 := by
      refine ⟨fun h => ?_, fun hi => ⟨hacc, hread, by omega, fun j hj => ?_⟩⟩
      · by_contra hgt
        exact hstops (h.2.2.2 k (by omega))
      · exact hall j (Nat.zero_le j) (by omega)
    rcases hcase with ⟨hstray, hloop⟩ | ⟨hstray, out, hwrote, hloop⟩
    · rw [hloop]
      exact iff_of_false False.elim fun h => h.1 k ((hreached k).mpr (Nat.lt_succ_self k)) hstray
    · have hstays (i : Nat) (hi : i < k + 1) : ¬ Stray sys file i := by
        rcases Nat.lt_succ_iff_lt_or_eq.mp hi with hlt | rfl
        · exact (hall i (Nat.zero_le i) hlt).1
        · exact hstray
      have hwritten := wrote_right_iff hacc hk hwrote
      simp only [hloop, hreached]
      constructor
      · rintro ⟨hgate, hitems, -⟩
        exact ⟨hstays, hwritten.mp ⟨hgate, hitems⟩⟩
      · rintro ⟨-, hvouched⟩
        obtain ⟨hgate, hitems⟩ := hwritten.mpr hvouched
        exact ⟨hgate, hitems, fun hzero => absurd hzero (by decide)⟩

theorem right_nothing (sys : System) (file : List Byte) : Right sys file (some (-1, [])) :=
  ⟨fun h => absurd rfl h, fun _ hw => absurd hw List.not_mem_nil, fun h => absurd h (by decide)⟩

/-- **`setImgPath`** writes the keys of the images that it should exactly when it is careful enough
for the image. -/
theorem setImgPath_right_iff (sys : System) (file : List Byte) :
    Right sys file (setImgPath sys (some file)) ↔ Careful sys file := by
  rw [setImgPath_some]
  by_cases hacc : Accepted sys file
  · rw [if_pos hacc]
    by_cases hle : (readHeads file).length ≤ itemReadBufSz
    · rw [if_neg hle.not_gt]
      by_cases hread : HeadsRead file
      · rw [if_pos hread, itemLoop_right_iff hacc hread]
        exact ⟨fun h => ⟨fun _ => hle, h.1, h.2⟩, fun h => ⟨h.stays, h.vouched⟩⟩
      · rw [if_neg hread]
        exact iff_of_true (right_nothing sys file)
          ⟨fun _ => hle, fun i h => absurd h.2.1 hread, fun i key h => absurd h.2.1 hread⟩
    · rw [if_pos (not_le.mp hle)]
      exact iff_of_false False.elim fun h => hle (h.heads hacc)
  · rw [if_neg hacc]
    exact iff_of_true (right_nothing sys file)
      ⟨fun h => absurd h hacc, fun i h => absurd h.1 hacc, fun i key h => absurd h.1 hacc⟩

end Whole

/-! ## An image without a sum -/

/-- A system that gives and takes everything. -/
def willing : System where
  readBuf := true
  crcBuf := some fun _ => 0
  tmpbuffer _ := true
  writebuffer _ := true
  node _ := ⟨true, true, true, 1, bytes "1"⟩

/-- The head of an image with one item and with 0 for the field of the sum and for the size; the
head of the item; and its byte. -/
def unsummed : List Byte :=
  leBytes 4 0 ++ leBytes 4 1 ++ imgMagic ++ leBytes 4 0 ++ leBytes 4 1 ++
    (leBytes 4 1 ++ leBytes 4 1 ++ leBytes 4 72 ++ leBytes 4 0 ++ Key.itemName .rx ++
      List.replicate 24 0) ++ [7]

/-- **No size** is above that of the file, and the sum that then counts is the field. -/
theorem not_right_unsummed : ¬ Right willing unsummed (setImgPath willing (some unsummed)) := by
  have hrun : setImgPath willing (some unsummed) = some (0, [⟨0, Key.keyName .rx, [7]⟩]) := by
    decide +kernel
  rw [hrun]
  rintro ⟨hgate, -⟩
  exact absurd (hgate (List.cons_ne_nil _ _)).size (by decide +kernel)

end VendorAmlogic.Hdcp.ImgKey
