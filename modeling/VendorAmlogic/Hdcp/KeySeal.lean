import Mathlib.Tactic
import VendorAmlogic.Hdcp.AesCbc
import VendorAmlogic.Hdcp.KeyUnpack

/-!
# Sealed keys

`do_aes` of `systemcontrol/HDCP/HdcpKeyDecrypt.cpp` with the block cipher of `aes.cpp` and the fixed
key. What it encrypts for a blob is what it gives back out of the blob.
-/

namespace VendorAmlogic.Hdcp.KeyBlob

open VendorAmlogic.Lib VendorAmlogic.Hdcp.Aes

def aesKeyBit : Nat := 128

def defaultFixedAeskey : List Byte := bytes "hello!amlogic!yl"

/-- `do_aes` with `isEncrypt`, for data of whole blocks; `ctx` is the context of the key. -/
def doAesEncrypt (ctx : AesContext) (pIn : List Byte) : List Byte :=
  (Aes.aesCryptCbc ctx true defaultFixedIv pIn).2.2

/-- The decryption of a blob is that of a stream. -/
theorem cbcDecrypt_eq (ctx : AesContext) (n : Nat) (iv : List Byte) {c : List Byte}
    (hc : c.length = 16 * n) :
    cbcDecrypt (aesCryptEcb ctx false) iv c = (aesCbcLoop ctx false n iv c).1 := by
  induction n generalizing iv c with
  | zero =>
    obtain rfl := List.length_eq_zero_iff.mp hc
    rfl
  | succ n ih =>
    have htake : (c.take 16).length = 16 := List.length_take_of_le (by omega)
    have hsplit : cbcDecrypt (aesCryptEcb ctx false) iv (c.take 16 ++ c.drop 16) = _ :=
      cbcDecrypt_append htake iv (c.drop 16)
    rw [List.take_append_drop] at hsplit
    rw [hsplit, ih _ (by rw [List.length_drop]; omega)]
    rfl

/-- **`do_aes` gives back what it has sealed**, wherever the data lies in the blob. -/
theorem doAes_doAesEncrypt {e d : AesContext} (he : aesSetkeyEnc defaultFixedAeskey aesKeyBit = .ok e)
    (hd : aesSetkeyDec defaultFixedAeskey aesKeyBit = .ok d) {b plain : List Byte} {pIn : Nat}
    (news : Bool) (hwhole : plain.length % 16 = 0) (hmax : plain.length ≤ keyMaxSize)
    (hin : (b.drop pIn).take plain.length = doAesEncrypt e plain) :
    doAes (aesCryptEcb d false) b news pIn plain.length = .ok plain := by
  have hcrypt : doAesEncrypt e plain =
      (aesCbcLoop e true (plain.length / 16) defaultFixedIv plain).1 := by
    unfold doAesEncrypt Aes.aesCryptCbc
    rw [if_neg (by omega)]
  have hlen : (doAesEncrypt e plain).length = plain.length := by
    rw [hcrypt, length_aesCbcLoop]
    omega
  have hplain := (paired_of_setkey he hd).aesCbcLoop_decrypt (plain.length / 16) plain (by omega)
    defaultFixedIv
  have hround : roundUp plain.length = plain.length := by
    unfold roundUp
    rw [i32_eq_self (by omega) (by unfold keyMaxSize at hmax; omega)]
    omega
  unfold doAes
  dsimp only
  by_cases h0 : (plain.length : Int) = 0
  · rw [if_pos h0, List.length_eq_zero_iff.mp (by omega : plain.length = 0)]
  · have hbound : pIn + plain.length ≤ b.length := by
      have := congrArg List.length hin
      rw [hlen, List.length_take, List.length_drop] at this
      omega
    rw [if_neg h0, if_neg (by omega), hround, if_neg (by omega), aesCryptCbc_eq,
      if_pos (.inr ⟨by omega, by rw [List.length_nil]; omega⟩), List.nil_append]
    have hsize : 16 * ((plain.length : Int) / 16).toNat = plain.length := by omega
    rw [hsize, hin, cbcDecrypt_eq d (plain.length / 16) _ (by omega), hcrypt, hplain]
    rfl

/-- Two blocks behind three bytes. -/
theorem doAes_doAesEncrypt_two : ∃ e d, aesSetkeyEnc defaultFixedAeskey aesKeyBit = .ok e ∧
    aesSetkeyDec defaultFixedAeskey aesKeyBit = .ok d ∧
      doAes (aesCryptEcb d false) ([1, 2, 3] ++ doAesEncrypt e (List.replicate 32 5)) false 3 32 =
        .ok (List.replicate 32 5) := by
  refine ⟨_, _, rfl, rfl, @doAes_doAesEncrypt _ _ rfl rfl ([1, 2, 3] ++ doAesEncrypt _ _)
    (List.replicate 32 5) 3 false (by decide) (by decide) ?_⟩
  exact List.take_of_length_le (length_aesCbcLoop 2 _ _).le

end VendorAmlogic.Hdcp.KeyBlob
