import VendorAmlogic.Lib.Stdio

/-!
# Resource images: headers and CRC

The headers of `logo_img_packer/res_pack.h` and the CRC of `crc32.cpp`. An
image is the image head, the item heads, and then the items, each filled up to
a multiple of sixteen bytes. What is undefined in the source is `none`.
-/

namespace VendorAmlogic.ResImg

open VendorAmlogic.Lib

def ihMagic : Nat := 0x27051956
def ihNmlen : Nat := 32
def amlResImgItemAlignSz : Nat := 16
def amlResImgV1Magic : List Byte := bytes "AML_RES!"
def amlResImgVersionV1 : Int := 1
def amlResImgVersionV2 : Int := 2
def imgHeadSz : Nat := 64
def itemHeadSz : Nat := 64
def itemReadBufSz : Nat := 65536
def maxPath : Nat := 512

/-! ## Headers -/

/-- `AmlResImgHead_t`; `reserv` is left zero. -/
structure AmlResImgHead where
  crc : Nat
  version : Int
  magic : List Byte
  imgSz : Nat
  imgItemNum : Nat
  alignSz : Nat

/-- `AmlResItemHead_t`; `hcrc`, `end`, `dcrc`, `type` and `comp` are left zero. -/
structure AmlResItemHead where
  magic : Nat
  size : Nat
  start : Nat
  next : Nat
  index : Byte
  nums : Byte
  name : List Byte
  deriving DecidableEq

def AmlResImgHead.toBytes (h : AmlResImgHead) : List Byte :=
  leBytes 4 h.crc ++ leBytes 4 (u32 h.version) ++ h.magic ++ leBytes 4 h.imgSz ++
    leBytes 4 h.imgItemNum ++ leBytes 4 h.alignSz ++ List.replicate 36 0

def AmlResItemHead.toBytes (h : AmlResItemHead) : List Byte :=
  leBytes 4 h.magic ++ leBytes 4 0 ++ leBytes 4 h.size ++ leBytes 4 h.start ++ leBytes 4 0 ++
    leBytes 4 h.next ++ leBytes 4 0 ++ [h.index, h.nums, 0, 0] ++ h.name

/-- The unsigned integer at an offset. -/
def u32At (bs : List Byte) (o : Nat) : Nat := ofLe ((bs.drop o).take 4)

theorem u32At_lt (bs : List Byte) (o : Nat) : u32At bs o < 2 ^ 32 := by
  have hlt := ofLe_lt ((bs.drop o).take 4)
  have hle : ((bs.drop o).take 4).length ≤ 4 := List.length_take_le 4 _
  calc u32At bs o < 256 ^ ((bs.drop o).take 4).length := hlt
    _ ≤ 256 ^ 4 := Nat.pow_le_pow_right (by decide) hle

def AmlResImgHead.ofBytes (bs : List Byte) : AmlResImgHead where
  crc := u32At bs 0
  version := i32 (u32At bs 4)
  magic := (bs.drop 8).take 8
  imgSz := u32At bs 16
  imgItemNum := u32At bs 20
  alignSz := u32At bs 24

def AmlResItemHead.ofBytes (bs : List Byte) : AmlResItemHead where
  magic := u32At bs 0
  size := u32At bs 8
  start := u32At bs 12
  next := u32At bs 20
  index := bs.getD 28 0
  nums := bs.getD 29 0
  name := (bs.drop 32).take ihNmlen

/-- The values fit their fields. -/
structure AmlResImgHead.Fits (h : AmlResImgHead) : Prop where
  crc : h.crc < 2 ^ 32
  version : -2 ^ 31 ≤ h.version ∧ h.version < 2 ^ 31
  magic : h.magic.length = 8
  imgSz : h.imgSz < 2 ^ 32
  imgItemNum : h.imgItemNum < 2 ^ 32
  alignSz : h.alignSz < 2 ^ 32

structure AmlResItemHead.Fits (h : AmlResItemHead) : Prop where
  magic : h.magic < 2 ^ 32
  size : h.size < 2 ^ 32
  start : h.start < 2 ^ 32
  next : h.next < 2 ^ 32
  name : h.name.length = ihNmlen

theorem AmlResImgHead.Fits.length_toBytes {h : AmlResImgHead} (hf : h.Fits) :
    h.toBytes.length = imgHeadSz := by
  simp [AmlResImgHead.toBytes, hf.magic, imgHeadSz]

theorem AmlResItemHead.Fits.length_toBytes {h : AmlResItemHead} (hf : h.Fits) :
    h.toBytes.length = itemHeadSz := by
  simp [AmlResItemHead.toBytes, hf.name, itemHeadSz, ihNmlen]

theorem drop_skip {a b : List Byte} {o : Nat} (h : a.length ≤ o) :
    (a ++ b).drop o = b.drop (o - a.length) := by
  rw [List.drop_append, List.drop_eq_nil_of_le h, List.nil_append]

theorem u32At_skip {a b : List Byte} {o : Nat} (h : a.length ≤ o) :
    u32At (a ++ b) o = u32At b (o - a.length) := by
  rw [u32At, u32At, drop_skip h]

theorem u32At_here {b : List Byte} {n : Nat} (h : n < 2 ^ 32) : u32At (leBytes 4 n ++ b) 0 = n := by
  rw [u32At, List.drop_zero, List.take_left' (length_leBytes 4 n), ofLe_leBytes h]

theorem AmlResImgHead.Fits.ofBytes_toBytes {h : AmlResImgHead} (hf : h.Fits) (rest : List Byte) :
    AmlResImgHead.ofBytes (h.toBytes ++ rest) = h := by
  obtain ⟨hcrc, ⟨hv0, hv1⟩, hmagic, hsz, hnum, hal⟩ := hf
  have hver : u32 h.version < 2 ^ 32 := by
    unfold u32
    omega
  have hversion : i32 (u32 h.version) = h.version := i32_u32 hv0 hv1
  have hm : ∀ b, (h.magic ++ b).take 8 = h.magic := fun b => List.take_left' hmagic
  simp only [AmlResImgHead.ofBytes, AmlResImgHead.toBytes, List.append_assoc]
  simp (disch := simp [hmagic]) only [u32At_skip, drop_skip, length_leBytes, hmagic]
  simp only [Nat.reduceSub, List.drop_zero, u32At_here hcrc, u32At_here hver, u32At_here hsz,
    u32At_here hnum, u32At_here hal, hversion, hm]

theorem AmlResItemHead.Fits.ofBytes_toBytes {h : AmlResItemHead} (hf : h.Fits) (rest : List Byte) :
    AmlResItemHead.ofBytes (h.toBytes ++ rest) = h := by
  obtain ⟨hmagic, hsize, hstart, hnext, hname⟩ := hf
  have hn : ∀ b, (h.name ++ b).take ihNmlen = h.name := fun b => List.take_left' hname
  simp only [AmlResItemHead.ofBytes, AmlResItemHead.toBytes, List.append_assoc, List.getD_eq_getElem?_getD]
  simp (disch := simp) only [u32At_skip, drop_skip, length_leBytes, List.getElem?_append_right]
  simp only [Nat.reduceSub, List.drop_zero, u32At_here hmagic, u32At_here hsize, u32At_here hstart,
    u32At_here hnext, List.length_cons, List.length_nil, Nat.reduceAdd, hn]
  rfl

/-! ## CRC -/

/-- `crc_table`, as `init_crc_table` fills it. -/
def crcTable (i : Nat) : BitVec 32 :=
  (fun c : BitVec 32 => if c &&& 1 = 1 then 0xedb88320 ^^^ (c >>> 1) else c >>> 1)^[8] (BitVec.ofNat 32 i)

def crc32 (crc : BitVec 32) (buffer : List Byte) : BitVec 32 :=
  buffer.foldl (fun crc b => crcTable ((crc ^^^ b.setWidth 32) &&& 0xff).toNat ^^^ (crc >>> 8)) crc

/-- The buffer of `calc_img_crc`. -/
def bufsize : Nat := 1024 * 16

/-- `calc_img_crc`. It goes on after a short read with bytes that were not read. -/
def calcImgCrc (fp : Stream) (offset checkSz : Nat) : Option Nat :=
  let maxCheckLen := u32 (fp.data.length - offset)
  if checkSz ≠ 0 ∧ checkSz > maxCheckLen then some 0
  else
    let checkSz := if checkSz = 0 then maxCheckLen else checkSz
    let (crc, _, full) := forChunks bufsize checkSz (fun crc _ buf => crc32 crc buf) (checkSz + 1)
      (fp.fseek offset) 0 0xffffffff
    if full then some crc.toNat else none

/-- `check_img_crc`. -/
def checkImgCrc (fp : Stream) (offset orgCrc checkSz : Nat) : Option Int := do
  let genCrc ← calcImgCrc fp offset checkSz
  if genCrc ≠ orgCrc then some (-1) else some 0

/-- The CRC of a file from `offset` on, with the size given or left to the file. -/
theorem calcImgCrc_eq {fp : Stream} {offset checkSz : Nat} (ho : offset < fp.data.length)
    (hs : fp.data.length < 2 ^ 32) (hc : checkSz = 0 ∨ checkSz = fp.data.length - offset) :
    calcImgCrc fp offset checkSz = some (crc32 0xffffffff (fp.data.drop offset)).toNat := by
  have hmax : u32 (fp.data.length - offset) = fp.data.length - offset := u32_sub (Nat.le_of_lt ho) hs
  have hsz : (if checkSz = 0 then fp.data.length - offset else checkSz) = fp.data.length - offset := by
    split
    · rfl
    · omega
  have hrun := forChunks_append (B := bufsize) (f := crc32) (fun _ => True) (by decide)
    (show (fp.data.drop offset).length = fp.data.length - offset by rw [List.length_drop])
    (fun _ _ => rfl) (fun s a b _ => List.foldl_append.symm)
    (fp.fseek offset) 0xffffffff (Nat.lt_succ_self _)
    (show fp.data.drop offset = fp.data.drop offset ++ [] by rw [List.append_nil]) trivial
  rw [calcImgCrc, hmax, if_neg (by omega), hsz]
  dsimp only
  rw [hrun]
  rfl

end VendorAmlogic.ResImg
