import VendorAmlogic.Lib.Blob
import VendorAmlogic.Lib.Cbc

/-!
# Unpacking HDCP keys

`addSum`, `do_aes` and `hdcpKeyUnpack` of `systemcontrol/HDCP/HdcpKeyDecrypt.cpp`.
A blob is its bytes; what is written for an item is kept with the number of the
item. The decryption of a block is a parameter, and so are the results of the
system: that of `access`, of `open`, of the allocations and of `write`. The file
that is appended to the firmware item is left out.
-/

namespace VendorAmlogic.Hdcp.KeyBlob

open VendorAmlogic.Lib

/-! ## Model -/

def keyMaxSize : Nat := 2048
def headSize : Nat := 24
def itemHeadSize : Nat := 48

/-- `packedImgItem + i`. -/
def itemAt (i : Nat) : Nat := headSize + itemHeadSize * i

def defaultFixedIv : List Byte := bytes "jiangzeminbt.com"

/-- A read outside the blob or a store outside the buffer; or an allocation that throws. -/
inductive Stop where
  | outside | thrown
  deriving DecidableEq, Repr

def checked {α : Type} (x : Option α) : Except Stop α :=
  match x with
  | some a => .ok a
  | none => .error .outside

/-- What the system does for item `i`. -/
structure System where
  existsSrc : Bool
  /-- `new` of the buffer for the rounded length. -/
  news : Nat → Bool
  opens : Nat → Bool
  /-- `malloc` for the file that is appended. -/
  mallocs : Nat → Bool
  /-- How many bytes `write` takes. -/
  takes : Nat → Nat

section Model

variable (ecb : List Byte → List Byte) (sys : System) (b : List Byte)

/-- The words, four at a time and then one by one. -/
def sumLoop : Nat → Nat → BitVec 32 → Option (BitVec 32)
  | 0, _, sum => some sum
  | wordLen + 1, o, sum => do
    let w ← readWord b o
    sumLoop wordLen (o + 4) (sum + BitVec.ofNat 32 w)

/-- `addSum` of `size` bytes from `o` on: for the bytes behind the words a whole word is read. -/
def addSum (o size : Nat) : Option (BitVec 32) := do
  let sum ← sumLoop b (size / 4) o 0
  let rest := size % 4
  if rest = 0 then some sum
  else do
    let w ← readWord b (o + size / 4 * 4)
    some (sum + BitVec.ofNat 32 (w % 256 ^ rest))

/-- The loop of `aes_crypt_cbc`, into a buffer of `KEY_MAX_SIZE` bytes. -/
def aesCryptCbc : Nat → Nat → List Byte → List Byte → Option (List Byte)
  | 0, _, _, out => some out
  | length + 1, input, iv, out => do
    let temp ← readBytes b input 16
    if out.length + 16 > keyMaxSize then none
    else aesCryptCbc length (input + 16) temp (out ++ xorBlock (ecb temp) iv)

def roundUp (nInLen : Int) : Int := i32 (nInLen + 0xf) / 16 * 16

/-- `do_aes`: what it leaves in the buffer, as many bytes as it says in `*pOutLen`. -/
def doAes (news : Bool) (pIn : Nat) (nInLen : Int) : Except Stop (List Byte) :=
  let dataLen := roundUp nInLen
  if nInLen = 0 then .ok []
  else if nInLen % 16 ≠ 0 ∧ (dataLen < 0 ∨ !news) then .error .thrown
  else if dataLen < 0 then .error .outside
  else checked (aesCryptCbc ecb b (dataLen / 16).toNat pIn defaultFixedIv [])

/-- What is written: the number of the item and the bytes. -/
abbrev Written := List (Nat × List Byte)

/-- The body of the loop: `false`, when the function returns `false`. -/
def unpackItem (i : Nat) : Except Stop (Bool × Written) := do
  let dataOffset ← checked (readWord b (itemAt i + 8))
  let dataSz ← checked (readWord b (itemAt i + 4))
  let itembuf ← doAes ecb b (sys.news i) dataOffset (i32 dataSz)
  let firmware ← checked (readString b (itemAt i + 16) (bytes "firmware" ++ [0]))
  if firmware then
    if !sys.opens i then return (false, [])
    else return (sys.mallocs i, [(i, itembuf.take (sys.takes i))])
  else do
    let hdcp2Rx ← checked (readString b (itemAt i + 16) (bytes "hdcp2_rx" ++ [0]))
    if hdcp2Rx then
      if !sys.opens i then return (false, [])
      else return (true, [(i, itembuf.take (sys.takes i))])
    else return (true, [])

def itemLoop : Nat → Nat → Written → Except Stop (Bool × Written)
  | 0, _, out => return (true, out)
  | left + 1, i, out => do
    let r ← unpackItem ecb sys b i
    if r.1 then itemLoop left (i + 1) (out ++ r.2) else return (false, out ++ r.2)

def hdcpKeyUnpack : Except Stop (Bool × Written) :=
  if b.length > keyMaxSize then return (false, [])
  else if !sys.existsSrc then return (false, [])
  else do
    let gensum ← checked (addSum b 4 (u32 (b.length - 4)))
    let crc ← checked (readWord b 0)
    if BitVec.ofNat 32 crc ≠ gensum then return (false, [])
    else do
      let imgItemNum ← checked (readWord b 20)
      itemLoop ecb sys b (i32 imgItemNum).toNat 0 []

end Model

section Steps

variable {α β : Type}

theorem checked_some (a : α) : checked (some a) = .ok a := rfl

theorem checked_none : checked (none : Option α) = .error .outside := rfl

theorem ok_bind (a : α) (f : α → Except Stop β) : (Except.ok a >>= f) = f a := rfl

theorem error_bind (e : Stop) (f : α → Except Stop β) : (Except.error e >>= f) = .error e := rfl

end Steps

/-! ## The sum -/

section Sum

variable {b : List Byte}

theorem sumLoop_eq (n o : Nat) (sum : BitVec 32) (h : o + n * 4 = b.length) :
    sumLoop b n o sum = some (sum + wordSum (b.drop o)) := by
  induction n generalizing o sum with
  | zero =>
    rw [List.drop_eq_nil_of_le (by omega)]
    simp [sumLoop, wordSum, ofLe]
  | succ n ih =>
    have hlen : 4 ≤ (b.drop o).length := by rw [List.length_drop]; omega
    rw [sumLoop, readWord_of_le (by omega)]
    show sumLoop b n (o + 4) (sum + BitVec.ofNat 32 (wordAt b o)) = _
    rw [ih _ _ (by omega), wordSum_split hlen, List.drop_drop, BitVec.add_assoc]
    rfl

/-- The words of the sum are all of the blob, or it is not made of words. -/
theorem addSum_eq (h4 : 4 ≤ b.length) (hle : b.length ≤ keyMaxSize) :
    addSum b 4 (u32 (b.length - 4)) =
      if 4 ∣ b.length then some (wordSum (b.drop 4)) else none := by
  have hsize : u32 ((b.length : Int) - 4) = b.length - 4 :=
    u32_sub (n := 4) h4 (by unfold keyMaxSize at hle; omega)
  have hzero : (0 : BitVec 32) + wordSum (b.drop 4) = wordSum (b.drop 4) := BitVec.zero_add _
  rw [hsize]
  unfold addSum
  by_cases hdvd : 4 ∣ b.length
  · rw [if_pos hdvd, sumLoop_eq _ _ _ (by omega), hzero]
    exact if_pos (by omega)
  · rw [if_neg hdvd]
    cases sumLoop b ((b.length - 4) / 4) 4 0 with
    | none => rfl
    | some sum =>
      show (if (b.length - 4) % 4 = 0 then some sum else _) = none
      rw [if_neg (by omega), readWord_of_lt (by omega)]
      rfl

end Sum

/-! ## One item -/

section Item

variable {ecb : List Byte → List Byte} {sys : System} {b : List Byte} {i : Nat}

def firmwareName : List Byte := bytes "firmware" ++ [0]
def hdcp2RxName : List Byte := bytes "hdcp2_rx" ++ [0]

def dataSz (b : List Byte) (i : Nat) : Nat := wordAt b (itemAt i + 4)
def dataOffset (b : List Byte) (i : Nat) : Nat := wordAt b (itemAt i + 8)
def name (b : List Byte) (i : Nat) : List Byte := b.drop (itemAt i + 16)

/-- The length that is decrypted. -/
def dataLen (b : List Byte) (i : Nat) : Int := roundUp (i32 (dataSz b i))

/-- The buffer for the rounded length cannot be had. -/
def Throws (sys : System) (b : List Byte) (i : Nat) : Prop :=
  i32 (dataSz b i) % 16 ≠ 0 ∧ (dataLen b i < 0 ∨ sys.news i = false)

instance (sys : System) (b : List Byte) (i : Nat) : Decidable (Throws sys b i) :=
  inferInstanceAs (Decidable (_ ∧ _))

/-- The data is in the blob, with what the rounding adds, and in the buffer. -/
def DataSafe (b : List Byte) (i : Nat) : Prop :=
  0 ≤ dataLen b i ∧ dataLen b i ≤ keyMaxSize ∧
    (dataLen b i = 0 ∨ dataOffset b i + dataLen b i ≤ b.length)

instance (b : List Byte) (i : Nat) : Decidable (DataSafe b i) :=
  inferInstanceAs (Decidable (_ ∧ _ ∧ (_ ∨ _)))

/-- The name is in the blob as far as it is compared. -/
def NameSafe (b : List Byte) (i : Nat) : Prop :=
  ¬ Cut (name b i) firmwareName ∧ ¬ Cut (name b i) hdcp2RxName

instance (b : List Byte) (i : Nat) : Decidable (NameSafe b i) :=
  inferInstanceAs (Decidable (_ ∧ _))

/-- The sizes in the head of the item are in the blob; and unless the buffer for the data cannot be
had, the data and the name are. -/
def Safe (sys : System) (b : List Byte) (i : Nat) : Prop :=
  itemAt i + 12 ≤ b.length ∧ (Throws sys b i ∨ (DataSafe b i ∧ NameSafe b i))

instance (sys : System) (b : List Byte) (i : Nat) : Decidable (Safe sys b i) :=
  inferInstanceAs (Decidable (_ ∧ (_ ∨ (_ ∧ _))))

/-- The item is one of the two that are written out. -/
def Named (b : List Byte) (i : Nat) : Prop := firmwareName <+: name b i ∨ hdcp2RxName <+: name b i

instance (b : List Byte) (i : Nat) : Decidable (Named b i) := inferInstanceAs (Decidable (_ ∨ _))

/-- The function goes on after the item. -/
def GoesOn (sys : System) (b : List Byte) (i : Nat) : Prop :=
  ¬ Throws sys b i ∧ (Named b i → sys.opens i = true) ∧
    (firmwareName <+: name b i → sys.mallocs i = true)

instance (sys : System) (b : List Byte) (i : Nat) : Decidable (GoesOn sys b i) :=
  inferInstanceAs (Decidable (_ ∧ _ ∧ _))

/-- What the item decrypts to, with what the rounding adds. -/
def decrypted (ecb : List Byte → List Byte) (b : List Byte) (i : Nat) : List Byte :=
  cbcDecrypt ecb defaultFixedIv ((b.drop (dataOffset b i)).take (dataLen b i).toNat)

/-- What is written for the item. -/
def writtenOf (ecb : List Byte → List Byte) (sys : System) (b : List Byte) (i : Nat) : Written :=
  if Named b i ∧ sys.opens i = true then [(i, (decrypted ecb b i).take (sys.takes i))] else []

/-- The loop of the decryption stays in the blob and in the buffer, or it does not. -/
theorem aesCryptCbc_eq (n input : Nat) (iv out : List Byte) :
    aesCryptCbc ecb b n input iv out =
      if n = 0 ∨ (input + 16 * n ≤ b.length ∧ out.length + 16 * n ≤ keyMaxSize) then
        some (out ++ cbcDecrypt ecb iv ((b.drop input).take (16 * n)))
      else none := by
  induction n generalizing input iv out with
  | zero =>
    rw [if_pos (.inl rfl), Nat.mul_zero, List.take_zero, cbcDecrypt_nil, List.append_nil]
    rfl
  | succ n ih =>
    unfold aesCryptCbc
    by_cases hin : input + 16 ≤ b.length
    · rw [readBytes_of_le hin]
      show (if out.length + 16 > keyMaxSize then none else _) = _
      by_cases hout : out.length + 16 > keyMaxSize
      · rw [if_pos hout, if_neg (by omega)]
      · have hlen : ((b.drop input).take 16).length = 16 :=
          length_of_readBytes (readBytes_of_le hin)
        rw [if_neg hout, ih, List.length_append, length_xorBlock]
        by_cases hrest : n = 0 ∨
            (input + 16 + 16 * n ≤ b.length ∧ out.length + 16 + 16 * n ≤ keyMaxSize)
        · have htake : (b.drop input).take (16 * (n + 1)) =
              (b.drop input).take 16 ++ (b.drop (input + 16)).take (16 * n) := by
            rw [Nat.mul_succ, Nat.add_comm, List.take_add, List.drop_drop]
          rw [if_pos hrest, if_pos (.inr (by omega)), htake, cbcDecrypt_append hlen,
            List.append_assoc]
        · rw [if_neg hrest, if_neg (by omega)]
    · rw [readBytes_of_lt (by omega), if_neg (by omega)]
      rfl

theorem dataLen_dvd (b : List Byte) (i : Nat) : dataLen b i / 16 * 16 = dataLen b i := by
  unfold dataLen roundUp
  omega

theorem doAes_throws (h : Throws sys b i) :
    doAes ecb b (sys.news i) (dataOffset b i) (i32 (dataSz b i)) = .error .thrown := by
  have hne : i32 (dataSz b i) ≠ 0 := fun h0 => h.1 (by rw [h0]; rfl)
  unfold doAes
  simp only
  rw [if_neg hne]
  refine if_pos ⟨h.1, h.2.imp_right fun hn => ?_⟩
  rw [hn]
  rfl

theorem doAes_eq (h : ¬ Throws sys b i) :
    doAes ecb b (sys.news i) (dataOffset b i) (i32 (dataSz b i)) =
      if DataSafe b i then .ok (decrypted ecb b i) else .error .outside := by
  have hdvd := dataLen_dvd b i
  have hlen : roundUp (i32 (dataSz b i)) = dataLen b i := rfl
  unfold doAes
  simp only
  by_cases h0 : i32 (dataSz b i) = 0
  · have hzero : dataLen b i = 0 := by
      rw [dataLen, h0]
      rfl
    rw [if_pos h0, if_pos (show DataSafe b i from ⟨hzero.ge, by rw [hzero]; decide, .inl hzero⟩),
      decrypted, hzero, Int.toNat_zero, List.take_zero]
    rfl
  · have hnew : ¬ (i32 (dataSz b i) % 16 ≠ 0 ∧
        (roundUp (i32 (dataSz b i)) < 0 ∨ (!sys.news i) = true)) := fun hn =>
      h ⟨hn.1, hn.2.imp_right fun hf => Bool.not_eq_true' _ |>.mp hf⟩
    rw [if_neg h0, if_neg hnew, hlen]
    by_cases hneg : dataLen b i < 0
    · rw [if_pos hneg, if_neg fun hs : DataSafe b i => absurd hs.1 (by omega)]
    · rw [if_neg hneg, aesCryptCbc_eq, List.nil_append, List.length_nil]
      have hsize : 16 * (dataLen b i / 16).toNat = (dataLen b i).toNat := by omega
      rw [hsize]
      by_cases hs : DataSafe b i
      · obtain ⟨-, hmax, hin⟩ := id hs
        rw [if_pos hs, if_pos (by omega)]
        rfl
      · rw [if_neg hs, if_neg fun hc => hs ⟨by omega, by omega, by omega⟩]
        rfl

/-- The names are different from their first byte on. -/
theorem not_cut_of_firmware (h : firmwareName <+: name b i) : ¬ Cut (name b i) hdcp2RxName := by
  intro h'
  cases hn : name b i with
  | nil =>
    rw [hn] at h
    exact absurd (List.prefix_nil.mp h) (by decide)
  | cons c cs =>
    rw [hn] at h h'
    have hf := (List.cons_prefix_cons.mp (show (0x66 : Byte) :: _ <+: c :: cs from h)).1
    have hh := (List.cons_prefix_cons.mp (show c :: cs <+: (0x68 : Byte) :: _ from h'.1)).1
    exact absurd (hf.trans hh) (by decide)

theorem writtenOf_of_opens (h : Named b i) (ho : sys.opens i = true) :
    writtenOf ecb sys b i = [(i, (decrypted ecb b i).take (sys.takes i))] := if_pos ⟨h, ho⟩

theorem writtenOf_of_closed (ho : ¬ sys.opens i = true) : writtenOf ecb sys b i = [] :=
  if_neg fun h => ho h.2

/-- **One item**: whether it stays inside, whether the loop goes on, and what is written. -/
theorem unpackItem_eq (ecb : List Byte → List Byte) (sys : System) (b : List Byte) (i : Nat) :
    unpackItem ecb sys b i =
      if Safe sys b i then
        if Throws sys b i then .error .thrown
        else .ok (decide (GoesOn sys b i), writtenOf ecb sys b i)
      else .error .outside := by
  unfold unpackItem
  by_cases hhead : itemAt i + 12 ≤ b.length
  · have hoff : readWord b (itemAt i + 8) = some (dataOffset b i) := readWord_of_le hhead
    have hsz : readWord b (itemAt i + 4) = some (dataSz b i) := readWord_of_le (by omega)
    rw [hoff, hsz, checked_some, ok_bind, checked_some, ok_bind]
    by_cases hthrow : Throws sys b i
    · rw [doAes_throws hthrow, error_bind, if_pos (show Safe sys b i from ⟨hhead, .inl hthrow⟩),
        if_pos hthrow]
    · rw [doAes_eq hthrow]
      by_cases hdata : DataSafe b i
      · rw [if_pos hdata, ok_bind, readString_eq, readString_eq]
        have hsafe : Safe sys b i ↔ NameSafe b i := by
          simp only [Safe, hhead, hthrow, hdata, true_and, false_or]
        change (checked (if Cut (name b i) firmwareName then none else
          some (decide (firmwareName <+: name b i))) >>= _) = _
        by_cases hcut : Cut (name b i) firmwareName
        · rw [if_pos hcut, checked_none, error_bind, if_neg fun hs => (hsafe.mp hs).1 hcut]
        rw [if_neg hcut, checked_some, ok_bind]
        by_cases hfw : firmwareName <+: name b i
        · rw [if_pos (decide_eq_true hfw), if_pos (hsafe.mpr ⟨hcut, not_cut_of_firmware hfw⟩),
            if_neg hthrow]
          by_cases hopen : sys.opens i = true
          · have hgoes : decide (GoesOn sys b i) = sys.mallocs i := by
              rw [Bool.eq_iff_iff, decide_eq_true_iff]
              exact ⟨fun h => h.2.2 hfw, fun h => ⟨hthrow, fun _ => hopen, fun _ => h⟩⟩
            rw [writtenOf_of_opens (.inl hfw) hopen, hopen, hgoes]
            rfl
          · rw [writtenOf_of_closed hopen, Bool.eq_false_iff.mpr hopen,
              decide_eq_false fun h : GoesOn sys b i => hopen (h.2.1 (.inl hfw))]
            rfl
        · rw [if_neg fun h => hfw (of_decide_eq_true h)]
          change (checked (if Cut (name b i) hdcp2RxName then none else
            some (decide (hdcp2RxName <+: name b i))) >>= _) = _
          by_cases hcut' : Cut (name b i) hdcp2RxName
          · rw [if_pos hcut', checked_none, error_bind, if_neg fun hs => (hsafe.mp hs).2 hcut']
          rw [if_neg hcut', checked_some, ok_bind, if_pos (hsafe.mpr ⟨hcut, hcut'⟩), if_neg hthrow]
          by_cases hrx : hdcp2RxName <+: name b i
          · rw [if_pos (decide_eq_true hrx)]
            by_cases hopen : sys.opens i = true
            · rw [writtenOf_of_opens (.inr hrx) hopen, hopen,
                decide_eq_true (show GoesOn sys b i from
                  ⟨hthrow, fun _ => hopen, fun h => absurd h hfw⟩)]
              rfl
            · rw [writtenOf_of_closed hopen, Bool.eq_false_iff.mpr hopen,
                decide_eq_false fun h : GoesOn sys b i => hopen (h.2.1 (.inr hrx))]
              rfl
          · have hnamed : ¬ Named b i := fun h => h.elim hfw hrx
            rw [if_neg fun h => hrx (of_decide_eq_true h), writtenOf, if_neg fun h => hnamed h.1,
              decide_eq_true (show GoesOn sys b i from
                ⟨hthrow, fun h => absurd h hnamed, fun h => absurd h hfw⟩)]
            rfl
      · rw [if_neg hdata, error_bind, if_neg fun hs : Safe sys b i =>
          hdata (hs.2.resolve_left hthrow).1]
  · have hsafe : ¬ Safe sys b i := fun hs => hhead hs.1
    have hoff : readWord b (itemAt i + 8) = none := readWord_of_lt (by omega)
    rw [hoff, checked_none, error_bind, if_neg hsafe]

end Item

/-! ## The whole blob -/

section Blob

variable {ecb : List Byte → List Byte} {sys : System} {b : List Byte} {i : Nat}

/-- The bytes are the decryption of those of item `i`, which are in the blob. -/
def ItemPlain (ecb : List Byte → List Byte) (b : List Byte) (i : Nat) (d : List Byte) : Prop :=
  (dataSz b i = 0 ∨ dataOffset b i + dataSz b i ≤ b.length) ∧ 16 ∣ dataSz b i ∧
    d = cbcDecrypt ecb defaultFixedIv ((b.drop (dataOffset b i)).take (dataSz b i))

/-- Nothing outside the blob is read and nothing outside the buffer stored to; and with `true`,
what is written for the items is what they decrypt to. -/
def Right (ecb : List Byte → List Byte) (b : List Byte) : Except Stop (Bool × Written) → Prop
  | .ok (true, out) => ∀ w ∈ out, ItemPlain ecb b w.1 w.2
  | .ok (false, _) => True
  | .error .thrown => True
  | .error .outside => False

/-- The size of the item is not rounded, and `write` takes all of it. -/
def Whole (sys : System) (b : List Byte) (i : Nat) : Prop :=
  16 ∣ dataSz b i ∧ dataSz b i ≤ sys.takes i

instance (sys : System) (b : List Byte) (i : Nat) : Decidable (Whole sys b i) :=
  inferInstanceAs (Decidable (_ ∧ _))

/-- A size that is not rounded is the length of what is decrypted. -/
theorem dataLen_of_dvd (hsafe : DataSafe b i) (h : 16 ∣ dataSz b i) :
    dataLen b i = dataSz b i := by
  obtain ⟨h0, -, -⟩ := hsafe
  have hsz : dataSz b i < 2 ^ 32 := wordAt_lt b (itemAt i + 4)
  unfold dataLen roundUp i32 at *
  simp only [Int.bmod_def] at *
  split at h0 <;> split <;> omega

theorem itemPlain_iff (hsafe : Safe sys b i) (hthrow : ¬ Throws sys b i) :
    ItemPlain ecb b i ((decrypted ecb b i).take (sys.takes i)) ↔ Whole sys b i := by
  obtain ⟨hdata, -⟩ := hsafe.2.resolve_left hthrow
  by_cases hdvd : 16 ∣ dataSz b i
  · have hlen := dataLen_of_dvd hdata hdvd
    have hin : dataSz b i = 0 ∨ dataOffset b i + dataSz b i ≤ b.length := by
      have h := hdata.2.2
      omega
    have hplain : decrypted ecb b i =
        cbcDecrypt ecb defaultFixedIv ((b.drop (dataOffset b i)).take (dataSz b i)) := by
      rw [decrypted, hlen, Int.toNat_natCast]
    have hlength : (decrypted ecb b i).length = dataSz b i := by
      rw [hplain, length_cbcDecrypt, List.length_take, List.length_drop]
      omega
    rw [ItemPlain, Whole, ← hplain, ← hlength, List.take_eq_self_iff, hlength]
    exact ⟨fun h => ⟨h.2.1, h.2.2⟩, fun h => ⟨hin, h.1, h.2⟩⟩
  · exact iff_of_false (fun h => hdvd h.2.1) fun h => hdvd h.1

/-- What an item adds to what is written. -/
theorem append_right_iff (hsafe : Safe sys b i) (hgo : GoesOn sys b i) (out : Written) :
    (∀ w ∈ out ++ writtenOf ecb sys b i, ItemPlain ecb b w.1 w.2) ↔
      (∀ w ∈ out, ItemPlain ecb b w.1 w.2) ∧ (Named b i → Whole sys b i) := by
  by_cases hnamed : Named b i
  · rw [writtenOf_of_opens hnamed (hgo.2.1 hnamed), List.forall_mem_append,
      List.forall_mem_singleton, itemPlain_iff hsafe hgo.1]
    simp only [hnamed, forall_const]
  · rw [writtenOf, if_neg fun h => hnamed h.1, List.append_nil]
    simp only [hnamed, false_implies, and_true]

/-- A safe item that the loop does not go on after is the last thing that is done. -/
theorem itemLoop_stops {left : Nat} (hsafe : Safe sys b i) (hgo : ¬ GoesOn sys b i)
    (out : Written) : Right ecb b (itemLoop ecb sys b (left + 1) i out) := by
  have hitem := unpackItem_eq ecb sys b i
  rw [if_pos hsafe] at hitem
  by_cases hthrow : Throws sys b i
  · rw [if_pos hthrow] at hitem
    rw [itemLoop, hitem, error_bind]
    exact True.intro
  · rw [if_neg hthrow] at hitem
    rw [itemLoop, hitem, ok_bind]
    simp only
    rw [if_neg fun h => hgo (of_decide_eq_true h)]
    exact True.intro

/-- **The loop**: it stays inside and writes what is right just when the items that it gets to are
safe and, if it gets to the end, those that are written are whole. -/
theorem itemLoop_right_iff (left i : Nat) (out : Written) :
    Right ecb b (itemLoop ecb sys b left i out) ↔
      (∀ k, i ≤ k → k < i + left → (∀ j, i ≤ j → j < k → GoesOn sys b j) → Safe sys b k) ∧
      ((∀ j, i ≤ j → j < i + left → GoesOn sys b j) →
        (∀ w ∈ out, ItemPlain ecb b w.1 w.2) ∧
          ∀ k, i ≤ k → k < i + left → Named b k → Whole sys b k) := by
  induction left generalizing i out with
  | zero =>
    show (∀ w ∈ out, ItemPlain ecb b w.1 w.2) ↔ _
    exact ⟨fun h => ⟨fun k hk hk' => absurd hk' (by omega), fun _ =>
      ⟨h, fun k hk hk' => absurd hk' (by omega)⟩⟩, fun h =>
        (h.2 fun j hj hj' => absurd hj' (by omega)).1⟩
  | succ left ih =>
    by_cases hsafe : Safe sys b i
    · by_cases hgo : GoesOn sys b i
      · rw [itemLoop, unpackItem_eq, if_pos hsafe, if_neg hgo.1, ok_bind]
        simp only
        rw [if_pos (decide_eq_true hgo), ih, append_right_iff hsafe hgo]
        constructor
        · rintro ⟨hsafes, hends⟩
          refine ⟨fun k hk hk' hj => ?_, fun hj => ?_⟩
          · rcases Nat.eq_or_lt_of_le hk with rfl | hlt
            · exact hsafe
            · exact hsafes k hlt (by omega) fun j hj1 hj2 => hj j (by omega) hj2
          · obtain ⟨⟨hout, hfirst⟩, hrest⟩ := hends fun j hj1 hj2 => hj j (by omega) (by omega)
            refine ⟨hout, fun k hk hk' => ?_⟩
            rcases Nat.eq_or_lt_of_le hk with rfl | hlt
            · exact hfirst
            · exact hrest k hlt (by omega)
        · rintro ⟨hsafes, hends⟩
          have hgoes : ∀ {n}, (∀ j, i + 1 ≤ j → j < n → GoesOn sys b j) →
              ∀ j, i ≤ j → j < n → GoesOn sys b j := fun h j hj hj' => by
            rcases Nat.eq_or_lt_of_le hj with rfl | hlt
            · exact hgo
            · exact h j hlt hj'
          refine ⟨fun k hk hk' hj => hsafes k (by omega) (by omega) (hgoes hj), fun hj => ?_⟩
          obtain ⟨hout, hrest⟩ := hends (hgoes fun j hj1 hj2 => hj j hj1 (by omega))
          exact ⟨⟨hout, hrest i (Nat.le_refl i) (by omega)⟩, fun k hk hk' =>
            hrest k (by omega) (by omega)⟩
      · refine iff_of_true (itemLoop_stops hsafe hgo out) ⟨fun k hk hk' hj => ?_, fun hj =>
          absurd (hj i (by omega) (by omega)) hgo⟩
        rcases Nat.eq_or_lt_of_le hk with rfl | hlt
        · exact hsafe
        · exact absurd (hj i (by omega) hlt) hgo
    · rw [itemLoop, unpackItem_eq, if_neg hsafe]
      exact iff_of_false id fun h => hsafe (h.1 i (by omega) (by omega) fun j hj hj' =>
        absurd hj' (by omega))

/-- The checksum is that of the blob. -/
def Matches (b : List Byte) : Prop :=
  4 ≤ b.length ∧ BitVec.ofNat 32 (wordAt b 0) = wordSum (b.drop 4)

instance (b : List Byte) : Decidable (Matches b) := inferInstanceAs (Decidable (_ ∧ _))

def imgItemNum (b : List Byte) : Nat := (i32 (wordAt b 20)).toNat

/-- The blob is of words and has a head. Each item that is got to is safe; and if all of them are,
those that are written are whole. -/
structure Orderly (sys : System) (b : List Byte) : Prop where
  words : 4 ∣ b.length
  head : headSize ≤ b.length
  safe : ∀ i < imgItemNum b, (∀ j < i, GoesOn sys b j) → Safe sys b i
  whole : (∀ j < imgItemNum b, GoesOn sys b j) → ∀ i < imgItemNum b, Named b i → Whole sys b i

/-- **Unpacking stays in bounds**, for blobs of at most `KEY_MAX_SIZE` bytes with a matching
checksum. -/
theorem hdcpKeyUnpack_right_iff (ecb : List Byte → List Byte) (sys : System) (b : List Byte)
    (hmax : b.length ≤ keyMaxSize) (hsum : Matches b) :
    Right ecb b (hdcpKeyUnpack ecb sys b) ↔ (sys.existsSrc = true → Orderly sys b) := by
  obtain ⟨h4, hcrc⟩ := hsum
  unfold hdcpKeyUnpack
  rw [if_neg (by omega)]
  cases hsrc : sys.existsSrc with
  | false => exact iff_of_true trivial fun h => Bool.noConfusion h
  | true =>
    refine Iff.trans ?_ (⟨fun h _ => h, fun h => h rfl⟩ : Orderly sys b ↔ _)
    rw [if_neg (by decide), addSum_eq h4 hmax, readWord_of_le (by omega)]
    by_cases hdvd : 4 ∣ b.length
    · rw [if_pos hdvd, checked_some, ok_bind, checked_some, ok_bind, if_neg (not_not_intro hcrc)]
      by_cases hhead : headSize ≤ b.length
      · rw [readWord_of_le (show 20 + 4 ≤ b.length from hhead), checked_some, ok_bind]
        refine (itemLoop_right_iff _ 0 []).trans ?_
        simp only [Nat.zero_le, forall_const, Nat.zero_add, List.not_mem_nil, false_implies,
          true_and]
        exact ⟨fun h => ⟨hdvd, hhead, h.1, h.2⟩, fun h => ⟨h.safe, h.whole⟩⟩
      · rw [readWord_of_lt (show b.length < 20 + 4 from Nat.lt_of_not_le hhead)]
        exact iff_of_false id fun h => hhead h.head
    · rw [if_neg hdvd]
      exact iff_of_false id fun h => hdvd h.words

/-- One item of sixteen bytes, by its checksum, its offset and what is behind the heads. -/
def exampleBlob (crc dataOffset : Nat) (data : List Byte) : List Byte :=
  leBytes 4 crc ++ leBytes 4 1 ++ bytes "AML_HDK!" ++ leBytes 4 0 ++ leBytes 4 1 ++
    (leBytes 4 0 ++ leBytes 4 16 ++ leBytes 4 dataOffset ++ leBytes 4 0 ++
      (bytes "hdcp2_rx" ++ List.replicate 24 0)) ++ data

/-- Everything works. -/
def exampleSystem : System where
  existsSrc := true
  news _ := true
  opens _ := true
  mallocs _ := true
  takes _ := 2048

theorem hdcpKeyUnpack_right_example :
    Right id (exampleBlob 0x696D557D 72 (List.replicate 16 0))
      (hdcpKeyUnpack id exampleSystem (exampleBlob 0x696D557D 72 (List.replicate 16 0))) :=
  (hdcpKeyUnpack_right_iff id exampleSystem (exampleBlob 0x696D557D 72 (List.replicate 16 0))
    (by decide +kernel) (by decide +kernel)).mpr fun _ =>
      ⟨by decide +kernel, by decide +kernel, by decide +kernel, by decide +kernel⟩

/-- The data of the item is said to be behind the end of the blob. -/
theorem hdcpKeyUnpack_not_right_offset :
    ¬ ∀ (ecb : List Byte → List Byte) (sys : System) (b : List Byte), b.length ≤ keyMaxSize →
      Matches b → Right ecb b (hdcpKeyUnpack ecb sys b) := by
  intro h
  have hright := h id exampleSystem (exampleBlob 0x696D6535 4096 []) (by decide +kernel)
    (by decide +kernel)
  have hout : hdcpKeyUnpack id exampleSystem (exampleBlob 0x696D6535 4096 []) = .error .outside :=
    rfl
  rw [hout] at hright
  exact hright

end Blob

end VendorAmlogic.Hdcp.KeyBlob
