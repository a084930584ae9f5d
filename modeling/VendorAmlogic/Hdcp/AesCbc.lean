import Mathlib.Data.List.GetD
import Mathlib.Tactic
import VendorAmlogic.Lib.Cbc
import VendorAmlogic.Lib.Run
import VendorAmlogic.Hdcp.Aes

/-!
# AES in CBC mode

`aes_crypt_cbc` of `systemcontrol/HDCP/aes.cpp`, which leaves in its `iv` what the next call goes on
from: data that comes in calls of any lengths is encrypted as one stream, and decrypted as one.
-/

namespace VendorAmlogic.Hdcp.Aes

open VendorAmlogic.Lib

/-- The loop of `aes_crypt_cbc` over `n` blocks: the output, and `iv` after it. -/
def aesCbcLoop (ctx : AesContext) (encrypt : Bool) : Nat → List Byte → List Byte → List Byte × List Byte
  | 0, iv, _ => ([], iv)
  | n + 1, iv, input =>
    let temp := input.take 16
    let output := if encrypt then aesCryptEcb ctx true (xorBlock temp iv)
      else xorBlock (aesCryptEcb ctx false temp) iv
    let r := aesCbcLoop ctx encrypt n (if encrypt then output else temp) (input.drop 16)
    (output ++ r.1, r.2)

/-- `aes_crypt_cbc`: `iv` after it, its result and its output. -/
def aesCryptCbc (ctx : AesContext) (encrypt : Bool) (iv input : List Byte) :
    List Byte × (Int × List Byte) :=
  if input.length % 16 ≠ 0 then (iv, (errInvalidInputLength, []))
  else
    let r := aesCbcLoop ctx encrypt (input.length / 16) iv input
    (r.2, (0, r.1))

/-- What the calls of a stream put out. -/
def cbcStream (ctx : AesContext) (encrypt : Bool) (iv : List Byte) (inputs : List (List Byte)) :
    List Byte :=
  ((run (aesCryptCbc ctx encrypt) iv inputs).2.map (·.2)).flatten

section
variable {e d ctx : AesContext} {encrypt : Bool} {iv : List Byte}

theorem getD_xorBlock {i : Nat} (hi : i < 16) (x y : List Byte) :
    (xorBlock x y).getD i 0 = x.getD i 0 ^^^ y.getD i 0 := by
  rw [List.getD_eq_getElem _ 0 (by rwa [length_xorBlock])]
  simp only [xorBlock, List.getElem_map, List.getElem_range]

theorem xorBlock_xorBlock {x : List Byte} (hx : x.length = 16) (iv : List Byte) :
    xorBlock (xorBlock x iv) iv = x := by
  apply List.ext_getElem
  · rw [length_xorBlock, hx]
  · intro i hi hx'
    rw [length_xorBlock] at hi
    rw [← List.getD_eq_getElem _ 0, getD_xorBlock hi, getD_xorBlock hi, xor_xor_self,
      List.getD_eq_getElem _ 0 hx']

theorem length_aesCryptEcb (input : List Byte) : (aesCryptEcb ctx encrypt input).length = 16 := by
  unfold aesCryptEcb
  cases encrypt <;> rfl

/-- A stream in two parts. -/
theorem aesCbcLoop_append (m n : Nat) (iv : List Byte) {x : List Byte} (hx : x.length = 16 * m)
    (y : List Byte) :
    aesCbcLoop ctx encrypt (m + n) iv (x ++ y) =
      ((aesCbcLoop ctx encrypt m iv x).1 ++
          (aesCbcLoop ctx encrypt n (aesCbcLoop ctx encrypt m iv x).2 y).1,
        (aesCbcLoop ctx encrypt n (aesCbcLoop ctx encrypt m iv x).2 y).2) := by
  induction m generalizing iv x with
  | zero =>
    obtain rfl := List.length_eq_zero_iff.mp hx
    rw [Nat.zero_add, List.nil_append]
    rfl
  | succ m ih =>
    have htake : (x ++ y).take 16 = x.take 16 := List.take_append_of_le_length (by omega)
    have hdrop : (x ++ y).drop 16 = x.drop 16 ++ y := List.drop_append_of_le_length (by omega)
    rw [Nat.add_right_comm, aesCbcLoop, aesCbcLoop, htake, hdrop,
      ih _ (by rw [List.length_drop]; omega), List.append_assoc]

theorem length_aesCbcLoop (n : Nat) (iv input : List Byte) :
    (aesCbcLoop ctx encrypt n iv input).1.length = 16 * n := by
  induction n generalizing iv input with
  | zero => rfl
  | succ n ih =>
    rw [aesCbcLoop, List.length_append, ih]
    cases encrypt with
    | true =>
      rw [if_pos rfl, length_aesCryptEcb]
      omega
    | false =>
      rw [if_neg Bool.false_ne_true, length_xorBlock]
      omega

/-- The calls go through the stream as one call does. -/
theorem run_aesCryptCbc {inputs : List (List Byte)} (h : ∀ x ∈ inputs, x.length % 16 = 0) :
    aesCbcLoop ctx encrypt (inputs.flatten.length / 16) iv inputs.flatten =
      (cbcStream ctx encrypt iv inputs, (run (aesCryptCbc ctx encrypt) iv inputs).1) := by
  induction inputs generalizing iv with
  | nil => rfl
  | cons x xs ih =>
    obtain ⟨hx, hxs⟩ := List.forall_mem_cons.mp h
    have hcall : aesCryptCbc ctx encrypt iv x =
        ((aesCbcLoop ctx encrypt (x.length / 16) iv x).2,
          (0, (aesCbcLoop ctx encrypt (x.length / 16) iv x).1)) := if_neg (by omega)
    have hlen : (x :: xs).flatten.length / 16 = x.length / 16 + xs.flatten.length / 16 := by
      rw [List.flatten_cons, List.length_append]
      omega
    rw [hlen, List.flatten_cons, aesCbcLoop_append _ _ _ (by omega), ih hxs]
    unfold cbcStream
    rw [run_cons, hcall]
    rfl

theorem length_cbcStream {inputs : List (List Byte)} (h : ∀ x ∈ inputs, x.length % 16 = 0) :
    (cbcStream ctx encrypt iv inputs).length = 16 * (inputs.flatten.length / 16) := by
  have hlen : (aesCbcLoop ctx encrypt (inputs.flatten.length / 16) iv inputs.flatten).1.length = _ :=
    length_aesCbcLoop ..
  rwa [run_aesCryptCbc h] at hlen

/-- Blocks that are encrypted one after the other are decrypted so, with the same `iv` behind. -/
theorem Paired.aesCbcLoop_decrypt (h : Paired e d) (n : Nat) (input : List Byte)
    (hi : input.length = 16 * n) (iv : List Byte) :
    aesCbcLoop d false n iv (aesCbcLoop e true n iv input).1 =
      (input, (aesCbcLoop e true n iv input).2) := by
  induction n generalizing iv input with
  | zero =>
    obtain rfl := List.length_eq_zero_iff.mp hi
    rfl
  | succ n ih =>
    have htemp : (input.take 16).length = 16 := List.length_take_of_le (by omega)
    have hout : (aesCryptEcb e true (xorBlock (input.take 16) iv)).length = 16 := length_aesCryptEcb _
    rw [aesCbcLoop, aesCbcLoop]
    dsimp only
    rw [if_pos rfl, if_pos rfl, if_neg Bool.false_ne_true, if_neg Bool.false_ne_true,
      List.take_left' hout, List.drop_left' hout, h.decrypt_encrypt (length_xorBlock _ _),
      xorBlock_xorBlock htemp, ih _ (by rw [List.length_drop]; omega), List.take_append_drop]

/-- **A stream in CBC mode comes back**: what is encrypted by any calls, for whole blocks, is decrypted
by any calls for the same bytes, and the two ends keep the same `iv`. -/
theorem cbcStream_roundTrip {key iv : List Byte} {keysize : Nat}
    (he : aesSetkeyEnc key keysize = .ok e) (hd : aesSetkeyDec key keysize = .ok d)
    {plain cut : List (List Byte)} (hplain : ∀ x ∈ plain, x.length % 16 = 0)
    (hcut : ∀ x ∈ cut, x.length % 16 = 0) (hsame : cut.flatten = cbcStream e true iv plain) :
    cbcStream d false iv cut = plain.flatten ∧
      (run (aesCryptCbc d false) iv cut).1 = (run (aesCryptCbc e true) iv plain).1 := by
  have hmod : plain.flatten.length % 16 = 0 := by
    rw [List.length_flatten]
    exact Nat.mod_eq_zero_of_dvd (List.dvd_sum fun n hn => by
      obtain ⟨x, hx, rfl⟩ := List.mem_map.mp hn
      exact Nat.dvd_of_mod_eq_zero (hplain x hx))
  have henc : aesCbcLoop e true _ iv _ = _ := run_aesCryptCbc hplain
  have hdec : aesCbcLoop d false _ iv _ = _ := run_aesCryptCbc hcut
  have hlen : (cbcStream e true iv plain).length = _ := length_cbcStream hplain
  have hback := (paired_of_setkey he hd).aesCbcLoop_decrypt (plain.flatten.length / 16) plain.flatten
    (by omega) iv
  rw [henc] at hback
  dsimp only at hback
  rw [hsame, hlen, Nat.mul_div_cancel_left _ (by decide), hback] at hdec
  obtain ⟨hstream, hiv⟩ := Prod.mk.inj hdec
  exact ⟨hstream.symm, hiv.symm⟩

end

/-- Three blocks that are encrypted by two calls are decrypted by one. -/
theorem cbcStream_roundTrip_zero : ∃ e d,
    aesSetkeyEnc (List.replicate 16 0) 128 = .ok e ∧ aesSetkeyDec (List.replicate 16 0) 128 = .ok d ∧
      cbcStream d false (List.replicate 16 7)
        [cbcStream e true (List.replicate 16 7) [List.replicate 16 1, [], List.replicate 32 2]] =
          List.replicate 16 1 ++ List.replicate 32 2 := by
  have hplain : ∀ x ∈ [List.replicate 16 (1 : Byte), [], List.replicate 32 2], x.length % 16 = 0 := by
    decide
  refine ⟨_, _, rfl, rfl, ?_⟩
  refine (@cbcStream_roundTrip _ _ (List.replicate 16 0) _ 128 rfl rfl _ _ hplain ?_ ?_).1
  · intro x hx
    rw [List.mem_singleton.mp hx, length_cbcStream hplain]
    exact Nat.mul_mod_right 16 _
  · exact List.append_nil _

end VendorAmlogic.Hdcp.Aes
