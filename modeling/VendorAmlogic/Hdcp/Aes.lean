import Mathlib.Tactic
import VendorAmlogic.Lib.InverseCipher
import VendorAmlogic.Hdcp.AesTables

/-!
# AES

The key schedules and the block cipher of `systemcontrol/HDCP/aes.cpp`. The tables give a round with
its mixing in one; the decryption takes its rounds in the same order, with the keys of the inner
rounds mixed by `aes_setkey_dec`.
-/

namespace VendorAmlogic.Hdcp.Aes

open VendorAmlogic.Lib

def errInvalidKeyLength : Int := -0x0020

def errInvalidInputLength : Int := -0x0022

/-! ## Blocks -/

/-- `X0` to `X3`. -/
structure Block where
  x0 : Word
  x1 : Word
  x2 : Word
  x3 : Word
  deriving DecidableEq

def Block.xor (x y : Block) : Block := ⟨x.x0 ^^^ y.x0, x.x1 ^^^ y.x1, x.x2 ^^^ y.x2, x.x3 ^^^ y.x3⟩

def Block.map (f : Word → Word) (x : Block) : Block := ⟨f x.x0, f x.x1, f x.x2, f x.x3⟩

def Block.words (x : Block) : List Word := [x.x0, x.x1, x.x2, x.x3]

/-- `GET_UINT32_LE`. -/
def getUint32Le (b : List Byte) (i : Nat) : Word :=
  (b.getD i 0).setWidth 32 ||| (b.getD (i + 1) 0).setWidth 32 <<< 8 |||
    (b.getD (i + 2) 0).setWidth 32 <<< 16 ||| (b.getD (i + 3) 0).setWidth 32 <<< 24

/-- `PUT_UINT32_LE`. -/
def putUint32Le (n : Word) : List Byte :=
  [n.setWidth 8, (n >>> 8).setWidth 8, (n >>> 16).setWidth 8, (n >>> 24).setWidth 8]

def getBlock (b : List Byte) : Block :=
  ⟨getUint32Le b 0, getUint32Le b 4, getUint32Le b 8, getUint32Le b 12⟩

def putBlock (x : Block) : List Byte :=
  putUint32Le x.x0 ++ putUint32Le x.x1 ++ putUint32Le x.x2 ++ putUint32Le x.x3

/-! ## Keys -/

/-- `aes_context`. -/
structure AesContext where
  nr : Nat
  rk : List Word

/-- Four entries of a table of bytes, each at its byte. -/
def fourBytes (b0 b1 b2 b3 : Byte) : Word :=
  b0.setWidth 32 ^^^ b1.setWidth 32 <<< 8 ^^^ b2.setWidth 32 <<< 16 ^^^ b3.setWidth 32 <<< 24

/-- The S-box on a word that is turned by a byte. -/
def subTurned (w : Word) : Word :=
  fourBytes (fsb (byteAt w 1)) (fsb (byteAt w 2)) (fsb (byteAt w 3)) (fsb (byteAt w 0))

def subWord (w : Word) : Word :=
  fourBytes (fsb (byteAt w 0)) (fsb (byteAt w 1)) (fsb (byteAt w 2)) (fsb (byteAt w 3))

/-- The words that the loop of `aes_setkey_enc` makes in pass `i`, from the words `rk`. -/
def expand (nr i : Nat) (rk : Nat → Word) : List Word :=
  let c := (rcon i).setWidth 32
  match nr with
  | 10 =>
    let r4 := rk 0 ^^^ c ^^^ subTurned (rk 3)
    let r5 := rk 1 ^^^ r4
    let r6 := rk 2 ^^^ r5
    [r4, r5, r6, rk 3 ^^^ r6]
  | 12 =>
    let r6 := rk 0 ^^^ c ^^^ subTurned (rk 5)
    let r7 := rk 1 ^^^ r6
    let r8 := rk 2 ^^^ r7
    let r9 := rk 3 ^^^ r8
    let r10 := rk 4 ^^^ r9
    [r6, r7, r8, r9, r10, rk 5 ^^^ r10]
  | 14 =>
    let r8 := rk 0 ^^^ c ^^^ subTurned (rk 7)
    let r9 := rk 1 ^^^ r8
    let r10 := rk 2 ^^^ r9
    let r11 := rk 3 ^^^ r10
    let r12 := rk 4 ^^^ subWord r11
    let r13 := rk 5 ^^^ r12
    let r14 := rk 6 ^^^ r13
    [r8, r9, r10, r11, r12, r13, r14, rk 7 ^^^ r14]
  | _ => []

/-- `n` passes from pass `i`; `RK` goes on by `nk` words in each. -/
def expandLoop (nr nk : Nat) : Nat → Nat → List Word → List Word
  | 0, _, buf => buf
  | n + 1, i, buf => expandLoop nr nk n (i + 1) (buf ++ expand nr i fun j => buf.getD (nk * i + j) 0)

/-- `nr` and the number of passes for a size of the key. -/
def roundsOf (keysize : Nat) : Option (Nat × Nat) :=
  match keysize with
  | 128 => some (10, 10)
  | 192 => some (12, 8)
  | 256 => some (14, 7)
  | _ => none

def aesSetkeyEnc (key : List Byte) (keysize : Nat) : Except Int AesContext :=
  match roundsOf keysize with
  | none => .error errInvalidKeyLength
  | some (nr, passes) =>
    let nk := keysize / 32
    .ok ⟨nr, expandLoop nr nk passes 0 ((List.range nk).map fun i => getUint32Le key (4 * i))⟩

/-- A word of a round key for the decryption. -/
def mixKey (sk : Word) : Word :=
  rt 0 (fsb (byteAt sk 0)) ^^^ rt 1 (fsb (byteAt sk 1)) ^^^ rt 2 (fsb (byteAt sk 2)) ^^^
    rt 3 (fsb (byteAt sk 3))

/-- Four words from `SK`. -/
def fourWords (sk : List Word) (i : Nat) : Block :=
  ⟨sk.getD (4 * i) 0, sk.getD (4 * i + 1) 0, sk.getD (4 * i + 2) 0, sk.getD (4 * i + 3) 0⟩

/-- The loop of `aes_setkey_dec`. -/
def mixKeys (sk : List Word) : Nat → List Word → List Word
  | 0, rk => rk
  | i + 1, rk => mixKeys sk i (rk ++ ((fourWords sk (i + 1)).map mixKey).words)

def aesSetkeyDec (key : List Byte) (keysize : Nat) : Except Int AesContext :=
  match roundsOf keysize with
  | none => .error errInvalidKeyLength
  | some (nr, _) => do
    let cty ← aesSetkeyEnc key keysize
    return ⟨nr, mixKeys cty.rk (nr - 1) (fourWords cty.rk cty.nr).words ++ (fourWords cty.rk 0).words⟩

/-! ## The cipher -/

def aesFround (k y : Block) : Block :=
  ⟨k.x0 ^^^ ft 0 (byteAt y.x0 0) ^^^ ft 1 (byteAt y.x1 1) ^^^ ft 2 (byteAt y.x2 2) ^^^ ft 3 (byteAt y.x3 3),
    k.x1 ^^^ ft 0 (byteAt y.x1 0) ^^^ ft 1 (byteAt y.x2 1) ^^^ ft 2 (byteAt y.x3 2) ^^^ ft 3 (byteAt y.x0 3),
    k.x2 ^^^ ft 0 (byteAt y.x2 0) ^^^ ft 1 (byteAt y.x3 1) ^^^ ft 2 (byteAt y.x0 2) ^^^ ft 3 (byteAt y.x1 3),
    k.x3 ^^^ ft 0 (byteAt y.x3 0) ^^^ ft 1 (byteAt y.x0 1) ^^^ ft 2 (byteAt y.x1 2) ^^^ ft 3 (byteAt y.x2 3)⟩

def aesRround (k y : Block) : Block :=
  ⟨k.x0 ^^^ rt 0 (byteAt y.x0 0) ^^^ rt 1 (byteAt y.x3 1) ^^^ rt 2 (byteAt y.x2 2) ^^^ rt 3 (byteAt y.x1 3),
    k.x1 ^^^ rt 0 (byteAt y.x1 0) ^^^ rt 1 (byteAt y.x0 1) ^^^ rt 2 (byteAt y.x3 2) ^^^ rt 3 (byteAt y.x2 3),
    k.x2 ^^^ rt 0 (byteAt y.x2 0) ^^^ rt 1 (byteAt y.x1 1) ^^^ rt 2 (byteAt y.x0 2) ^^^ rt 3 (byteAt y.x3 3),
    k.x3 ^^^ rt 0 (byteAt y.x3 0) ^^^ rt 1 (byteAt y.x2 1) ^^^ rt 2 (byteAt y.x1 2) ^^^ rt 3 (byteAt y.x0 3)⟩

/-- The bytes of the last round of the encryption, before its key. -/
def lastBytes (y : Block) : Block :=
  ⟨fourBytes (fsb (byteAt y.x0 0)) (fsb (byteAt y.x1 1)) (fsb (byteAt y.x2 2)) (fsb (byteAt y.x3 3)),
    fourBytes (fsb (byteAt y.x1 0)) (fsb (byteAt y.x2 1)) (fsb (byteAt y.x3 2)) (fsb (byteAt y.x0 3)),
    fourBytes (fsb (byteAt y.x2 0)) (fsb (byteAt y.x3 1)) (fsb (byteAt y.x0 2)) (fsb (byteAt y.x1 3)),
    fourBytes (fsb (byteAt y.x3 0)) (fsb (byteAt y.x0 1)) (fsb (byteAt y.x1 2)) (fsb (byteAt y.x2 3))⟩

/-- The bytes of the last round of the decryption, before its key. -/
def lastBytesRev (y : Block) : Block :=
  ⟨fourBytes (rsb (byteAt y.x0 0)) (rsb (byteAt y.x3 1)) (rsb (byteAt y.x2 2)) (rsb (byteAt y.x1 3)),
    fourBytes (rsb (byteAt y.x1 0)) (rsb (byteAt y.x0 1)) (rsb (byteAt y.x3 2)) (rsb (byteAt y.x2 3)),
    fourBytes (rsb (byteAt y.x2 0)) (rsb (byteAt y.x1 1)) (rsb (byteAt y.x0 2)) (rsb (byteAt y.x3 3)),
    fourBytes (rsb (byteAt y.x3 0)) (rsb (byteAt y.x2 1)) (rsb (byteAt y.x1 2)) (rsb (byteAt y.x0 3))⟩

/-- The loop of two rounds a pass; `RK` is at block `r` of the keys. -/
def roundPairs (round : Block → Block → Block) (rk : List Word) : Nat → Nat → Block → Block
  | 0, _, x => x
  | i + 1, r, x =>
    roundPairs round rk i (r + 2) (round (fourWords rk (r + 1)) (round (fourWords rk r) x))

/-- `aes_crypt_ecb`; `encrypt` is its mode. -/
def aesCryptEcb (ctx : AesContext) (encrypt : Bool) (input : List Byte) : List Byte :=
  let pairs := ctx.nr / 2 - 1
  let last := 1 + 2 * pairs
  let x := (getBlock input).xor (fourWords ctx.rk 0)
  if encrypt then
    let y := aesFround (fourWords ctx.rk last) (roundPairs aesFround ctx.rk pairs 1 x)
    putBlock ((fourWords ctx.rk (last + 1)).xor (lastBytes y))
  else
    let y := aesRround (fourWords ctx.rk last) (roundPairs aesRround ctx.rk pairs 1 x)
    putBlock ((fourWords ctx.rk (last + 1)).xor (lastBytesRev y))

example :
    (do let e ← aesSetkeyEnc (List.replicate 16 0) 128
        return aesCryptEcb e true (List.replicate 16 0)) =
      (.ok [0x66, 0xe9, 0x4b, 0xd4, 0xef, 0x8a, 0x2c, 0x3b, 0x88, 0x4c, 0xfa, 0x59, 0xca, 0x34, 0x2b, 0x2e] :
        Except Int (List Byte)) := by
  decide +kernel

/-! ## The rounds -/

theorem byteAt_fourBytes (b0 b1 b2 b3 : Byte) :
    byteAt (fourBytes b0 b1 b2 b3) 0 = b0 ∧ byteAt (fourBytes b0 b1 b2 b3) 1 = b1 ∧
      byteAt (fourBytes b0 b1 b2 b3) 2 = b2 ∧ byteAt (fourBytes b0 b1 b2 b3) 3 = b3 := by
  refine ⟨?_, ?_, ?_, ?_⟩ <;> ext i hi <;> simp [byteAt, fourBytes] <;> grind

theorem column_fourBytes (f : Byte → Word) (b0 b1 b2 b3 : Byte) :
    column f (fourBytes b0 b1 b2 b3) =
      f b0 ^^^ rotl8 (f b1) ^^^ rotl8 (rotl8 (f b2)) ^^^ rotl8 (rotl8 (rotl8 (f b3))) := by
  obtain ⟨h0, h1, h2, h3⟩ := byteAt_fourBytes b0 b1 b2 b3
  rw [column, h0, h1, h2, h3]

theorem fourBytes_byteAt (w : Word) :
    fourBytes (byteAt w 0) (byteAt w 1) (byteAt w 2) (byteAt w 3) = w := by
  ext i hi
  simp [byteAt, fourBytes]
  grind

theorem Block.xor_comm (x y : Block) : x.xor y = y.xor x := by
  simp only [Block.xor, BitVec.xor_comm]

/-- A round of the encryption: the bytes, the columns, the key. -/
theorem aesFround_eq (k y : Block) : aesFround k y = ((lastBytes y).map (column ft0)).xor k := by
  simp only [aesFround, lastBytes, Block.map, Block.xor, column_fourBytes]
  refine Block.mk.injEq .. ▸ ⟨?_, ?_, ?_, ?_⟩ <;>
  · simp only [ft_eq]
    ac_rfl

/-- A round of the decryption, in the same order. -/
theorem aesRround_eq (k y : Block) : aesRround k y = ((lastBytesRev y).map (column rt0)).xor k := by
  simp only [aesRround, lastBytesRev, Block.map, Block.xor, column_fourBytes]
  refine Block.mk.injEq .. ▸ ⟨?_, ?_, ?_, ?_⟩ <;>
  · simp only [rt_eq]
    ac_rfl

theorem mixKey_eq (sk : Word) : mixKey sk = column rt0 sk := by
  simp only [mixKey, rt, rsb_fsb, column]
  rfl

theorem lastBytesRev_lastBytes (y : Block) : lastBytesRev (lastBytes y) = y := by
  simp only [lastBytesRev, lastBytes, byteAt_fourBytes, rsb_fsb, fourBytes_byteAt]

/-- The steps of the decryption undo those of the encryption. -/
theorem undoes_aes : Undoes Block.xor lastBytes (Block.map (column ft0)) lastBytesRev
    (Block.map (column rt0)) where
  cancel := by
    intro s k
    simp only [Block.xor, xor_xor_self]
  isub_sub := lastBytesRev_lastBytes
  imix_mix := by
    intro s
    simp only [Block.map, column_rt0_column_ft0]
  imix_add := by
    intro s k
    simp only [Block.map, Block.xor, column_xor additive_rt0]

/-- The loop of two rounds a pass takes its rounds one by one. -/
theorem roundPairs_eq {round : Block → Block → Block} {sub mix : Block → Block}
    (hround : ∀ k y, round k y = (mix (sub y)).xor k) (rk : List Word) (i r : Nat) (x : Block) :
    roundPairs round rk i (r + 1) x = roundsFrom Block.xor sub mix (fourWords rk) (2 * i) r x := by
  induction i generalizing r x with
  | zero => rfl
  | succ i ih =>
    rw [roundPairs, ih (r + 2), hround, hround]
    rfl

theorem lastRound_eq {round : Block → Block → Block} {sub mix : Block → Block}
    (hround : ∀ k y, round k y = (mix (sub y)).xor k) (rk : List Word) (i : Nat) (x : Block) :
    (fourWords rk (1 + 2 * i + 1)).xor (sub (round (fourWords rk (1 + 2 * i))
        (roundPairs round rk i 1 (x.xor (fourWords rk 0))))) =
      crypt Block.xor sub mix (fourWords rk) (1 + 2 * i) x := by
  rw [roundPairs_eq hround rk i 0, hround, crypt, Block.xor_comm, Nat.add_comm 1 (2 * i),
    roundsFrom_succ_last, Nat.zero_add]

/-! ## Bytes of blocks -/

theorem getUint32Le_eq (b : List Byte) (i : Nat) :
    getUint32Le b i =
      fourBytes (b.getD i 0) (b.getD (i + 1) 0) (b.getD (i + 2) 0) (b.getD (i + 3) 0) := by
  ext k hk
  simp [getUint32Le, fourBytes]
  grind

theorem putUint32Le_eq (n : Word) : putUint32Le n = [byteAt n 0, byteAt n 1, byteAt n 2, byteAt n 3] := by
  simp [putUint32Le, byteAt]

theorem getBlock_putBlock (x : Block) : getBlock (putBlock x) = x := by
  simp [getBlock, putBlock, getUint32Le_eq, putUint32Le_eq, fourBytes_byteAt]

theorem putBlock_getBlock {b : List Byte} (hb : b.length = 16) : putBlock (getBlock b) = b := by
  have hbytes : putBlock (getBlock b) = (List.range 16).map fun i => b.getD i 0 := by
    simp only [getBlock, putBlock, getUint32Le_eq, putUint32Le_eq, byteAt_fourBytes]
    rfl
  rw [hbytes]
  apply List.ext_getElem
  · rw [List.length_map, List.length_range, hb]
  · intro i _ hi
    simp [hi]

/-! ## Decryption -/

/-- The contexts of a key: `d` has the keys of `e` backwards, those of the inner rounds mixed. -/
structure Paired (e d : AesContext) : Prop where
  pairs : ∃ i, e.nr = 2 * i + 2 ∧ d.nr = e.nr
  first : fourWords d.rk 0 = fourWords e.rk e.nr
  inner : ∀ r, 0 < r → r < e.nr → fourWords d.rk r = (fourWords e.rk (e.nr - r)).map (column rt0)
  last : fourWords d.rk e.nr = fourWords e.rk 0

/-- **Decryption undoes encryption** for a block. -/
theorem Paired.decrypt_encrypt {e d : AesContext} (h : Paired e d) {input : List Byte}
    (hi : input.length = 16) : aesCryptEcb d false (aesCryptEcb e true input) = input := by
  obtain ⟨i, hnr, hd⟩ := h.pairs
  have hpairs : e.nr / 2 - 1 = i := by omega
  have henc : aesCryptEcb e true input =
      putBlock (crypt Block.xor lastBytes (Block.map (column ft0)) (fourWords e.rk) (1 + 2 * i)
        (getBlock input)) := by
    unfold aesCryptEcb
    dsimp only
    rw [if_pos rfl, hpairs, lastRound_eq aesFround_eq]
  have hdec : ∀ b, aesCryptEcb d false b =
      putBlock (crypt Block.xor lastBytesRev (Block.map (column rt0)) (fourWords d.rk) (1 + 2 * i)
        (getBlock b)) := by
    intro b
    unfold aesCryptEcb
    dsimp only
    rw [if_neg Bool.false_ne_true, hd, hpairs, lastRound_eq aesRround_eq]
  have hlast : 1 + 2 * i + 1 = e.nr := by omega
  rw [henc, hdec, getBlock_putBlock, crypt_crypt undoes_aes, putBlock_getBlock hi]
  · rw [hlast, h.first]
  · intro r h0 hr
    rw [hlast, h.inner r h0 (by omega)]
  · rw [hlast, h.last]

/-! ## The keys of the decryption -/

theorem fourWords_flatMap (bs : List Block) {r : Nat} (hr : r < bs.length) :
    fourWords (bs.flatMap Block.words) r = bs[r] := by
  induction bs generalizing r with
  | nil => exact absurd hr (Nat.not_lt_zero r)
  | cons b bs ih =>
    cases r with
    | zero => rfl
    | succ r => exact ih (Nat.lt_of_succ_lt_succ hr)

/-- The keys of the inner rounds, from round `i` down. -/
theorem mixKeys_eq (sk : List Word) (i : Nat) (bs : List Block) :
    mixKeys sk i (bs.flatMap Block.words) = (bs ++ (List.range i).reverse.map fun m =>
      (fourWords sk (m + 1)).map mixKey).flatMap Block.words := by
  induction i generalizing bs with
  | zero => simp [mixKeys]
  | succ i ih =>
    have hnext : bs.flatMap Block.words ++ ((fourWords sk (i + 1)).map mixKey).words =
        (bs ++ [(fourWords sk (i + 1)).map mixKey]).flatMap Block.words := by
      simp
    rw [mixKeys, hnext, ih, List.range_succ, List.reverse_append, List.map_append, List.append_assoc]
    rfl

theorem aesSetkeyDec_rk (sk : List Word) (nr : Nat) :
    mixKeys sk (nr - 1) (fourWords sk nr).words ++ (fourWords sk 0).words =
      (fourWords sk nr :: ((List.range (nr - 1)).reverse.map fun m =>
        (fourWords sk (m + 1)).map (column rt0)) ++ [fourWords sk 0]).flatMap Block.words := by
  have hone : (fourWords sk nr).words = [fourWords sk nr].flatMap Block.words := by simp
  have hmix : mixKey = column rt0 := funext mixKey_eq
  rw [hone, mixKeys_eq, hmix]
  simp

theorem roundsOf_eq {keysize nr passes : Nat} (h : roundsOf keysize = some (nr, passes)) :
    ∃ i, nr = 2 * i + 2 := by
  unfold roundsOf at h
  split at h
  · exact ⟨4, by injection h with h; injection h with h _; omega⟩
  · exact ⟨5, by injection h with h; injection h with h _; omega⟩
  · exact ⟨6, by injection h with h; injection h with h _; omega⟩
  · exact nomatch h

/-- The two key schedules go together, for every key of a size that they take. -/
theorem paired_of_setkey {key : List Byte} {keysize : Nat} {e d : AesContext}
    (he : aesSetkeyEnc key keysize = .ok e) (hd : aesSetkeyDec key keysize = .ok d) : Paired e d := by
  unfold aesSetkeyDec at hd
  rw [he] at hd
  unfold aesSetkeyEnc at he
  cases hr : roundsOf keysize with
  | none =>
    rw [hr] at he
    exact nomatch he
  | some p =>
    rw [hr] at he hd
    obtain ⟨nr, passes⟩ := p
    have hnr : e.nr = nr := by
      rw [← Except.ok.inj he]
    obtain ⟨i, hi⟩ := roundsOf_eq hr
    obtain rfl : d = ⟨nr, _⟩ := (Except.ok.inj hd).symm
    rw [hnr, aesSetkeyDec_rk]
    have hlen : (fourWords e.rk nr :: ((List.range (nr - 1)).reverse.map fun m =>
        (fourWords e.rk (m + 1)).map (column rt0)) ++ [fourWords e.rk 0]).length = nr + 1 := by
      simp
      omega
    refine ⟨⟨i, hnr.trans hi, hnr.symm⟩, ?_, ?_, ?_⟩
    · rw [hnr, fourWords_flatMap _ (by omega)]
      rfl
    · intro r h0 hr'
      rw [hnr] at hr' ⊢
      rw [fourWords_flatMap _ (by omega), List.getElem_append_left (by simp; omega),
        List.getElem_cons, dif_neg (by omega), List.getElem_map, List.getElem_reverse,
        List.getElem_range, List.length_range]
      congr 2
      omega
    · rw [hnr, fourWords_flatMap _ (by omega), List.getElem_append_right (by simp; omega)]
      exact List.getElem_singleton _

/-- **AES decrypts what it has encrypted**: for every key of 128, 192 or 256 bits and every block. -/
theorem aesCryptEcb_roundTrip {key input : List Byte} {keysize : Nat} {e d : AesContext}
    (he : aesSetkeyEnc key keysize = .ok e) (hd : aesSetkeyDec key keysize = .ok d)
    (hi : input.length = 16) : aesCryptEcb d false (aesCryptEcb e true input) = input :=
  (paired_of_setkey he hd).decrypt_encrypt hi

/-- The zero key. -/
theorem aesCryptEcb_roundTrip_zero : ∃ e d, aesSetkeyEnc (List.replicate 24 0) 192 = .ok e ∧
    aesSetkeyDec (List.replicate 24 0) 192 = .ok d ∧
      aesCryptEcb d false (aesCryptEcb e true (bytes "sixteen letters.")) = bytes "sixteen letters." :=
  ⟨_, _, rfl, rfl, @aesCryptEcb_roundTrip (List.replicate 24 0) _ 192 _ _ rfl rfl rfl⟩

end VendorAmlogic.Hdcp.Aes
