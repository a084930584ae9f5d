import VendorAmlogic.Hdcp.KeyUnpack
import VendorAmlogic.Lib.Mem

/-!
# The sum of a key image

`add_sum`, `calc_img_crc` and `storage_calc_img_crc` of
`systemcontrol/HDCP/HDCPRx22ImgKey.cpp`, and `addSum` of `HdcpKeyDecrypt.cpp`. A
buffer is the memory it lies in, for a whole word is read where the bytes behind
the last word are. A file is its bytes; `off_t` and `long` have 64 bits.
-/

namespace VendorAmlogic.Hdcp.ImgKey

open VendorAmlogic.Lib

/-! ## Model -/

section Model

variable (mem : Mem)

def word (p : Nat) : BitVec 32 := BitVec.ofNat 32 (ofLe (mem.read p 4))

/-- The loop with four words a round: `wordLen`, `data` and the sum behind it. -/
def foursLoop : Nat → Nat → BitVec 32 → Nat × Nat × BitVec 32
  | wordLen + 4, data, sum =>
    foursLoop wordLen (data + 4 + 4 + 4 + 4)
      (sum + word mem data + word mem (data + 4) + word mem (data + 4 + 4) +
        word mem (data + 4 + 4 + 4))
  | wordLen, data, sum => (wordLen, data, sum)

/-- The loop with one word a round. -/
def onesLoop : Nat → Nat → BitVec 32 → Nat × BitVec 32
  | 0, data, sum => (data, sum)
  | wordLen + 1, data, sum => onesLoop wordLen (data + 4) (sum + word mem data)

/-- `add_sum`. -/
def addSum (pBuf size : Nat) (sum : BitVec 32) : BitVec 32 :=
  let fours := foursLoop mem (size / 4) pBuf sum
  let ones := onesLoop mem fours.1 fours.2.1 fours.2.2
  let rest := size % 4
  if rest = 1 then ones.2 + (word mem ones.1 &&& 0xff)
  else if rest = 2 then ones.2 + (word mem ones.1 &&& 0xffff)
  else if rest = 3 then ones.2 + (word mem ones.1 &&& 0xffffff)
  else ones.2

/-- `addSum` of `HdcpKeyDecrypt.cpp`. -/
def keyAddSum (pBuf size : Nat) : BitVec 32 := addSum mem pBuf size 0

/-- `storage_calc_img_crc`. -/
def storageCalcImgCrc (pbuf : Nat) (bufLen : Int) (checkSz : Nat) : BitVec 32 :=
  if checkSz = 0 then addSum mem pbuf (u32 bufLen) 0
  else if bufLen < i32 checkSz then 0
  else addSum mem pbuf checkSz 0

end Model

def oneReadSz : Nat := 12 * 1024

/-- The loop of `calc_img_crc`. Behind a short read `buf` keeps the bytes it had. -/
def crcLoop (checkSz : Nat) (fp : Stream) (buf : Mem) (totalLenToCheck : Nat) (crc : BitVec 32) :
    BitVec 32 :=
  if totalLenToCheck < checkSz then
    let thisReadSz := min (checkSz - totalLenToCheck) oneReadSz
    let r := fp.fread thisReadSz
    let buf := buf.copy 0 r.1
    crcLoop checkSz r.2 buf (totalLenToCheck + thisReadSz) (addSum buf 0 thisReadSz crc)
  else crc
termination_by checkSz - totalLenToCheck
decreasing_by
  unfold oneReadSz
  omega

/-- `MaxCheckLen`. -/
def maxCheckLen (size offset : Nat) : Nat := u32 ((u32 size : Int) - offset)

/-- `calc_img_crc` of the file and the buffer, where either may be `NULL`. -/
def calcImgCrc (fp : Option (List Byte)) (malloc : Option Mem) (offset checkSz : Nat) : BitVec 32 :=
  match fp, malloc with
  | some file, some buf =>
    let max := maxCheckLen file.length offset
    if checkSz = 0 then crcLoop max ⟨file, offset⟩ buf 0 0
    else if max < checkSz then 0
    else crcLoop checkSz ⟨file, offset⟩ buf 0 0
  | _, _ => 0

/-! ## The sum of a buffer -/

section Buffer

variable {mem : Mem}

/-- Four words a round are one word a round, four times. -/
theorem onesLoop_foursLoop (wordLen data : Nat) (sum : BitVec 32) :
    onesLoop mem (foursLoop mem wordLen data sum).1 (foursLoop mem wordLen data sum).2.1
        (foursLoop mem wordLen data sum).2.2 =
      onesLoop mem wordLen data sum := by
  induction wordLen, data, sum using foursLoop.induct mem with
  | case1 wordLen data sum ih =>
    rw [foursLoop]
    exact ih
  | case2 wordLen data sum hlt => rw [foursLoop.eq_2 _ _ _ _ hlt]

theorem onesLoop_eq (wordLen data : Nat) (sum : BitVec 32) :
    onesLoop mem wordLen data sum =
      (data + 4 * wordLen, sum + wordSum (mem.read data (4 * wordLen))) := by
  induction wordLen generalizing data sum with
  | zero =>
    rw [onesLoop, Nat.mul_zero, Nat.add_zero, Mem.read_zero]
    exact congrArg _ (BitVec.add_zero sum).symm
  | succ n ih =>
    have hread : mem.read data (4 * (n + 1)) = mem.read data 4 ++ mem.read (data + 4) (4 * n) := by
      rw [← Mem.read_add, Nat.mul_succ, Nat.add_comm]
    have hfour : wordSum (mem.read data 4) = word mem data := by
      rw [wordSum_split (by rw [Mem.length_read]), List.take_of_length_le (by rw [Mem.length_read]),
        List.drop_eq_nil_of_le (by rw [Mem.length_read])]
      exact BitVec.add_zero _
    have hdvd : 4 ∣ (mem.read data 4).length := by rw [Mem.length_read]
    rw [onesLoop, ih, hread, wordSum_append hdvd, hfour, BitVec.add_assoc]
    congr 1
    omega

/-- The whole words of a buffer, and what is left. -/
theorem wordSum_read (p size : Nat) :
    wordSum (mem.read p size) = wordSum (mem.read p (4 * (size / 4))) +
      wordSum (mem.read (p + 4 * (size / 4)) (size % 4)) := by
  have hread : mem.read p size =
      mem.read p (4 * (size / 4)) ++ mem.read (p + 4 * (size / 4)) (size % 4) := by
    rw [← Mem.read_add, Nat.div_add_mod]
  have hdvd : 4 ∣ (mem.read p (4 * (size / 4))).length := by
    rw [Mem.length_read]
    exact Nat.dvd_mul_right ..
  rw [hread, wordSum_append hdvd]

/-- The word behind the last whole one, cut to the bytes that are left. -/
theorem wordSum_rest (mem : Mem) (p : Nat) {rest : Nat} (h : rest < 4) :
    wordSum (mem.read p rest) = word mem p &&& BitVec.ofNat 32 (256 ^ rest - 1) := by
  have hpow : 256 ^ rest = 2 ^ (8 * rest) := by rw [Nat.pow_mul]
  have hlt : 2 ^ (8 * rest) - 1 < 2 ^ 32 := by
    have hle : 2 ^ (8 * rest) ≤ 2 ^ 32 := Nat.pow_le_pow_right (by decide) (by omega)
    omega
  have hword : ofLe (mem.read p 4) < 2 ^ 32 := by
    have hread := ofLe_lt (mem.read p 4)
    rwa [Mem.length_read] at hread
  apply BitVec.eq_of_toNat_eq
  rw [wordSum_of_lt (by rw [Mem.length_read]; exact h), ← Mem.take_read mem p h.le, ← ofLe_mod,
    hpow, word, BitVec.toNat_and, BitVec.toNat_ofNat, BitVec.toNat_ofNat, BitVec.toNat_ofNat,
    Nat.mod_eq_of_lt hlt, Nat.mod_eq_of_lt hword, Nat.and_two_pow_sub_one_eq_mod]
  exact Nat.mod_eq_of_lt (lt_of_le_of_lt (Nat.mod_le _ _) hword)

theorem addSum_eq (mem : Mem) (pBuf size : Nat) (sum : BitVec 32) :
    addSum mem pBuf size sum = sum + wordSum (mem.read pBuf size) := by
  have hrest := wordSum_rest mem (pBuf + 4 * (size / 4)) (Nat.mod_lt size (by decide : 0 < 4))
  rw [wordSum_read, hrest, ← BitVec.add_assoc]
  unfold addSum
  dsimp only
  rw [onesLoop_foursLoop, onesLoop_eq]
  have hlt : size % 4 < 4 := Nat.mod_lt _ (by decide)
  generalize size % 4 = rest at hlt ⊢
  match rest, hlt with
  | 0, _ => exact ((congrArg _ BitVec.and_zero).trans (BitVec.add_zero _)).symm
  | 1, _ => rfl
  | 2, _ => rfl
  | 3, _ => rfl

theorem addSum_zero (mem : Mem) (pBuf size : Nat) :
    addSum mem pBuf size 0 = wordSum (mem.read pBuf size) :=
  (addSum_eq mem pBuf size 0).trans (BitVec.zero_add _)

/-! ### In a blob -/

theorem readWord_mem {b : List Byte} {o w : Nat} (hmem : mem.read 0 b.length = b)
    (h : readWord b o = some w) : ofLe (mem.read o 4) = w := by
  obtain ⟨d, hd, rfl⟩ := Option.map_eq_some_iff.mp h
  obtain ⟨hle, rfl⟩ := readBytes_eq_some.mp hd
  conv_rhs => rw [← hmem, Mem.drop_read, Nat.zero_add, Mem.take_read _ _ (by omega)]

theorem sumLoop_mem {b : List Byte} {n o : Nat} {sum s : BitVec 32}
    (hmem : mem.read 0 b.length = b) (h : KeyBlob.sumLoop b n o sum = some s) :
    (onesLoop mem n o sum).2 = s := by
  induction n generalizing o sum with
  | zero => exact Option.some.inj h
  | succ n ih =>
    obtain ⟨w, hw, hrest⟩ := Option.bind_eq_some_iff.mp h
    rw [onesLoop, word, readWord_mem hmem hw]
    exact ih hrest

/-- Where a blob has the words that are read, its sum is the one in memory. -/
theorem keyAddSum_of_blob {b : List Byte} {o size : Nat} {s : BitVec 32}
    (hmem : mem.read 0 b.length = b) (h : KeyBlob.addSum b o size = some s) :
    keyAddSum mem o size = s := by
  obtain ⟨sum, hsum, hrest⟩ := Option.bind_eq_some_iff.mp h
  have hwords : wordSum (mem.read o (4 * (size / 4))) = sum := by
    have hones := sumLoop_mem hmem hsum
    rw [onesLoop_eq] at hones
    exact (BitVec.zero_add _).symm.trans hones
  rw [keyAddSum, addSum_zero, wordSum_read, hwords]
  by_cases h0 : size % 4 = 0
  · rw [if_pos h0] at hrest
    rw [h0, Mem.read_zero]
    exact (BitVec.add_zero _).trans (Option.some.inj hrest)
  · rw [if_neg h0] at hrest
    obtain ⟨w, hw, hs⟩ := Option.bind_eq_some_iff.mp hrest
    have hlt : size % 4 < 4 := Nat.mod_lt _ (by decide)
    rw [← Option.some.inj hs, wordSum_of_lt (by rwa [Mem.length_read]),
      ← Mem.take_read mem _ hlt.le, ← ofLe_mod, Nat.mul_comm 4, readWord_mem hmem hw]

end Buffer

/-! ## The sum of a file -/

/-- Every piece but the last is made of words. -/
theorem crcLoop_eq {checkSz total : Nat} {fp : Stream} (buf : Mem) (crc : BitVec 32)
    (h : fp.pos + (checkSz - total) ≤ fp.data.length) :
    crcLoop checkSz fp buf total crc =
      crc + wordSum ((fp.data.drop fp.pos).take (checkSz - total)) := by
  induction fp, buf, total, crc using crcLoop.induct checkSz with
  | case1 fp buf total crc hlt size r buf' ih =>
    have hsize : size = min (checkSz - total) oneReadSz := rfl
    have hd : r.1 = (fp.data.drop fp.pos).take size := rfl
    have hlen : r.1.length = size := by
      rw [hd, List.length_take, List.length_drop]
      omega
    have hr : r.2 = ⟨fp.data, fp.pos + r.1.length⟩ := rfl
    have hread : buf'.read 0 size = r.1 := by
      rw [← hlen]
      exact Mem.read_copy buf r.1
    have hrest : checkSz - (total + size) = checkSz - total - size := by omega
    have hsplit : (fp.data.drop fp.pos).take (checkSz - total) =
        r.1 ++ (fp.data.drop (fp.pos + size)).take (checkSz - total - size) := by
      rw [hd, ← List.drop_drop, ← List.take_add]
      congr 1
      omega
    rw [crcLoop, if_pos hlt]
    refine (ih ?_).trans ?_
    · rw [hr, hlen]
      show fp.pos + size + _ ≤ fp.data.length
      omega
    · rw [addSum_eq, hread, hr, hlen, hrest, hsplit, BitVec.add_assoc]
      refine congrArg (crc + ·) ?_
      by_cases hall : checkSz - total ≤ oneReadSz
      · have hnil : checkSz - total - size = 0 := by omega
        rw [hnil, List.take_zero, List.append_nil]
        exact BitVec.add_zero _
      · have hdvd : 4 ∣ r.1.length := by
          rw [hlen, hsize, Nat.min_eq_right (by omega)]
          decide
        exact (wordSum_append hdvd _).symm
  | case2 fp buf total crc hge =>
    have hnil : checkSz - total = 0 := by omega
    rw [crcLoop, if_neg hge, hnil, List.take_zero]
    exact (BitVec.add_zero crc).symm

theorem maxCheckLen_eq {size offset : Nat} (h : offset ≤ size) :
    maxCheckLen size offset = (size - offset) % 2 ^ 32 := by
  unfold maxCheckLen u32
  omega

section File

variable {mem buf : Mem} {p offset len : Nat} {file : List Byte}

theorem calcImgCrc_eq (hin : offset + len ≤ file.length) (hpos : 0 < len)
    (hlen : len ≤ (file.length - offset) % 2 ^ 32) :
    calcImgCrc (some file) (some buf) offset len = wordSum ((file.drop offset).take len) := by
  unfold calcImgCrc
  dsimp only
  rw [maxCheckLen_eq (by omega), if_neg (by omega), if_neg (by omega),
    crcLoop_eq buf 0 (show offset + (len - 0) ≤ file.length by omega)]
  exact BitVec.zero_add _

theorem calcImgCrc_zero (hin : offset ≤ file.length) :
    calcImgCrc (some file) (some buf) offset 0 =
      wordSum ((file.drop offset).take ((file.length - offset) % 2 ^ 32)) := by
  have hle : (file.length - offset) % 2 ^ 32 ≤ file.length - offset := Nat.mod_le _ _
  unfold calcImgCrc
  dsimp only
  rw [maxCheckLen_eq hin, if_pos rfl,
    crcLoop_eq buf 0 (show offset + ((file.length - offset) % 2 ^ 32 - 0) ≤ file.length by omega)]
  exact BitVec.zero_add _

end File

/-! ## Agreement -/

/-- The three sums of `len` bytes at `offset` are that of their words. -/
def SumsAgree (file : List Byte) (buf mem : Mem) (p : Nat) (bufLen : Int) (offset len : Nat) :
    Prop :=
  let sum := wordSum ((file.drop offset).take len)
  calcImgCrc (some file) (some buf) offset len = sum ∧
    storageCalcImgCrc mem p bufLen len = sum ∧ keyAddSum mem p len = sum

section Agreement

variable {mem : Mem} {p offset len : Nat} {file : List Byte}

theorem storageCalcImgCrc_eq {bufLen : Int} (hpos : 0 < len) (hle : i32 len ≤ bufLen) :
    storageCalcImgCrc mem p bufLen len = wordSum (mem.read p len) := by
  unfold storageCalcImgCrc
  rw [if_neg (by omega), if_neg (by omega), addSum_zero]

theorem storageCalcImgCrc_zero {bufLen : Nat} (h : bufLen < 2 ^ 31) :
    storageCalcImgCrc mem p bufLen 0 = wordSum (mem.read p bufLen) := by
  unfold storageCalcImgCrc
  rw [if_pos rfl, u32_natCast (by omega), addSum_zero]

/-- **The three sums** of bytes agree, and a length of zero is all there is from `offset` on. -/
theorem sums_agree (hin : offset + len ≤ file.length)
    (hlen : len ≤ (file.length - offset) % 2 ^ 32)
    (hmem : mem.read p len = (file.drop offset).take len) (buf : Mem) :
    (0 < len → ∀ bufLen, i32 len ≤ bufLen → SumsAgree file buf mem p bufLen offset len) ∧
    calcImgCrc (some file) (some buf) offset 0 =
      wordSum ((file.drop offset).take ((file.length - offset) % 2 ^ 32)) ∧
    (∀ bufLen : Nat, bufLen < 2 ^ 31 →
      storageCalcImgCrc mem p bufLen 0 = wordSum (mem.read p bufLen)) ∧
    keyAddSum mem p 0 = 0 := by
  refine ⟨fun hpos bufLen hle => ⟨calcImgCrc_eq hin hpos hlen, ?_, ?_⟩,
    calcImgCrc_zero (by omega), fun bufLen hlt => storageCalcImgCrc_zero hlt, ?_⟩
  · rw [storageCalcImgCrc_eq hpos hle, hmem]
  · rw [keyAddSum, addSum_zero, hmem]
  · rw [keyAddSum, addSum_zero, Mem.read_zero]
    rfl

end Agreement

/-- Three bytes in a file of five, with others behind them in memory. -/
theorem sums_agree_three :
    SumsAgree [9, 1, 2, 3, 9] (fun _ => 7) (fun i => BitVec.ofNat 8 i) 1 3 1 3 :=
  (sums_agree (p := 1) (by decide) (by decide) (by decide) _).1 (by decide) 3 (by decide)

/-- **No bytes**: the file is summed up to its end. -/
theorem not_sumsAgree_none : ¬ SumsAgree [1] (fun _ => 0) (fun _ => 1) 0 0 0 0 := by
  rintro ⟨hcalc, -⟩
  rw [calcImgCrc_zero (by decide)] at hcalc
  exact absurd hcalc (by decide)

end VendorAmlogic.Hdcp.ImgKey
