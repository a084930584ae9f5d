import VendorAmlogic.Hdcp.Sha1
import VendorAmlogic.Lib.CString

/-!
# The HDCP 1.4 key

`HDCPRxKey::setHdcpRX14key` of `systemcontrol/HDCP/HDCPRxKey.cpp`. What the
nodes of the kernel take is an input, and the result has what was written of
the key. The digest behind a key is compared with itself.
-/

namespace VendorAmlogic.Hdcp.Rx14

open VendorAmlogic.Lib VendorAmlogic.Hdcp.Sha1

/-- `HDCP_RX14_KEY_CONTENT_SIZE`. -/
def keyContentSize : Nat := 328

/-- `HDCP_RX14_KEY_DEF_HEADER`. -/
def keyDefHeader : List Byte :=
  [0x53, 0x4B, 0x59, 0x01, 0x00, 0x10, 0x0D, 0x15, 0x3A, 0x8E,
    0x99, 0xEE, 0x2A, 0x55, 0x58, 0xEE, 0xED, 0x4B, 0xBE, 0x00,
    0x74, 0xA9, 0x00, 0x10, 0x0A, 0x21, 0xE3, 0x30, 0x66, 0x34,
    0xCE, 0x9C, 0xC7, 0x8B, 0x51, 0x27, 0xF9, 0x0B, 0xAD, 0x09]

/-- Whether the nodes for the name take it, and how many bytes those for the key take; `none` is
an error. -/
structure Nodes where
  attach : Bool
  name : Bool
  storage : Option Nat
  receiver : Option Nat

/-- What a node took of the key. -/
inductive KeyWrite where
  | storage (taken : List Byte)
  | receiver (taken : List Byte)
  deriving DecidableEq

def KeyWrite.taken : KeyWrite → List Byte
  | .storage taken => taken
  | .receiver taken => taken

/-- The result, the writes of the key, and whether the digest was reported. -/
structure Outcome where
  ret : Int
  writes : List KeyWrite
  sha1Error : Bool

/-- `writeBufSys`. -/
def writeBufSys (takes : Option Nat) (buf : List Byte) : Int × Option (List Byte) :=
  match takes with
  | none => (-1, none)
  | some n => ((buf.take n).length, some (buf.take n))

/-- The writes of `setHdcpRX14key`. -/
def install (io : Nodes) (keyContentBuf : List Byte) : Int × List KeyWrite :=
  if ¬ io.attach then (-1, [])
  else if ¬ io.name then (-1, [])
  else
    let (len, stored) := writeBufSys io.storage keyContentBuf
    let stored := stored.toList.map .storage
    if keyContentSize ≠ len then (-1, stored)
    else
      let (_, sent) := writeBufSys io.receiver (keyDefHeader ++ keyContentBuf)
      (0, stored ++ sent.toList.map .receiver)

/-- `setHdcpRX14key`; `stack` is what is behind `sha1_buf1`. -/
def setHdcpRX14key (stack value : List Byte) (io : Nodes) : Outcome :=
  let keyContentBuf := value.take keyContentSize
  if value.length = 348 then
    let sha1Buf1 := (value.drop keyContentSize).take 20
    let _sha1Buf2 := sha1Csum keyContentBuf
    let sha1Error := ! strcmpEq (sha1Buf1 ++ stack) (sha1Buf1 ++ stack)
    let (ret, writes) := install io keyContentBuf
    ⟨ret, writes, sha1Error⟩
  else if value.length = keyContentSize then
    let (ret, writes) := install io keyContentBuf
    ⟨ret, writes, false⟩
  else ⟨-1, [], false⟩

/-! ## The digest -/

/-- The key is followed by its digest. -/
def DigestOk (value : List Byte) : Prop :=
  value.drop keyContentSize = sha1Csum (value.take keyContentSize)

instance (value : List Byte) : Decidable (DigestOk value) := inferInstanceAs (Decidable (_ = _))

/-- With another digest behind the key it fails, and no node has taken anything of the key. -/
def DigestGates (value : List Byte) (r : Outcome) : Prop :=
  ¬ DigestOk value → r.ret ≠ 0 ∧ ∀ w ∈ r.writes, w.taken = []

/-- The digest is never reported. -/
theorem setHdcpRX14key_sha1Error (stack value : List Byte) (io : Nodes) :
    (setHdcpRX14key stack value io).sha1Error = false := by
  unfold setHdcpRX14key
  split
  · simp [strcmpEq]
  · split
    · rfl
    · rfl

/-- The nodes that stop the installation before the storage has taken anything. -/
def Stopped (io : Nodes) : Prop :=
  io.attach = false ∨ io.name = false ∨ io.storage.getD 0 = 0

/-- It fails where it is stopped, and no node has taken anything. -/
theorem install_stopped {io : Nodes} (key : List Byte) (h : Stopped io) :
    (install io key).1 ≠ 0 ∧ ∀ w ∈ (install io key).2, w.taken = [] := by
  unfold install
  split
  · simp
  · rename_i hattach
    split
    · simp
    · rename_i hname
      have hzero : io.storage.getD 0 = 0 := by
        rcases h with h | h | h
        · simp [h] at hattach
        · simp [h] at hname
        · exact h
      cases hstorage : io.storage with
      | none => simp [writeBufSys, keyContentSize]
      | some n =>
        obtain rfl : n = 0 := by simpa [hstorage] using hzero
        simp [writeBufSys, keyContentSize, KeyWrite.taken]

/-- The storage takes some of the key where it is not. -/
theorem install_taken {io : Nodes} {key : List Byte} (hkey : key ≠ []) (h : ¬ Stopped io) :
    ∃ w ∈ (install io key).2, w.taken ≠ [] := by
  simp only [Stopped, not_or, Bool.not_eq_false] at h
  obtain ⟨hattach, hname, hstorage⟩ := h
  obtain ⟨n, hn⟩ : ∃ n, io.storage = some n := by
    cases hnone : io.storage with
    | none => simp [hnone] at hstorage
    | some n => exact ⟨n, rfl⟩
  have hpos : n ≠ 0 := by simpa [hn] using hstorage
  refine ⟨.storage (key.take n), ?_, by simp [KeyWrite.taken, hpos, hkey]⟩
  unfold install
  rw [if_neg (by simp [hattach]), if_neg (by simp [hname])]
  simp only [hn, writeBufSys]
  split
  · simp
  · simp

/-- **When the digest gates the key**. -/
theorem digestGates_iff (stack : List Byte) (io : Nodes) {value : List Byte}
    (h : value.length = 348) :
    DigestGates value (setHdcpRX14key stack value io) ↔ DigestOk value ∨ Stopped io := by
  have hset : setHdcpRX14key stack value io =
      ⟨(install io (value.take keyContentSize)).1, (install io (value.take keyContentSize)).2,
        (setHdcpRX14key stack value io).sha1Error⟩ := by
    unfold setHdcpRX14key
    rw [if_pos h]
  have hkey : value.take keyContentSize ≠ [] := by
    intro hnil
    have hlen := congrArg List.length hnil
    simp [keyContentSize, h] at hlen
  rw [hset, DigestGates]
  by_cases hok : DigestOk value
  · exact iff_of_true (fun hno => absurd hok hno) (.inl hok)
  · by_cases hstop : Stopped io
    · exact iff_of_true (fun _ => install_stopped _ hstop) (.inr hstop)
    · refine iff_of_false ?_ (by simp [hok, hstop])
      intro hgate
      obtain ⟨w, hw, htaken⟩ := install_taken hkey hstop
      exact htaken ((hgate hok).2 w hw)

/-- All nodes take what they are given. -/
def workingNodes : Nodes := ⟨true, true, some 368, some 368⟩

/-- A key of zeros with its digest. -/
def sealedZeros : List Byte :=
  List.replicate keyContentSize 0 ++ sha1Csum (List.replicate keyContentSize 0)

theorem length_sealedZeros : sealedZeros.length = 348 := by
  rw [sealedZeros, List.length_append, List.length_replicate, length_sha1Csum]
  rfl

theorem digestOk_sealedZeros : DigestOk sealedZeros := by
  have hlen : (List.replicate keyContentSize (0 : Byte)).length = keyContentSize :=
    List.length_replicate
  rw [DigestOk, sealedZeros, List.drop_left' hlen, List.take_left' hlen]

/-- The right digest, and a wrong one where there is no storage. -/
theorem digestGates_sealedZeros :
    DigestOk sealedZeros ∧ DigestGates sealedZeros (setHdcpRX14key [] sealedZeros workingNodes) ∧
      DigestGates (List.replicate 348 0)
        (setHdcpRX14key [] (List.replicate 348 0) ⟨true, true, none, none⟩) := by
  refine ⟨digestOk_sealedZeros, ?_, ?_⟩
  · exact (digestGates_iff [] workingNodes length_sealedZeros).2 (.inl digestOk_sealedZeros)
  · exact (digestGates_iff [] ⟨true, true, none, none⟩ List.length_replicate).2
      (.inr (.inr (.inr rfl)))

/-- **A key with a wrong digest**: it is written. -/
theorem not_digestGates_zeros :
    ¬ DigestGates (List.replicate 348 0)
      (setHdcpRX14key [] (List.replicate 348 0) workingNodes) := by
  intro h
  have hbad : ¬ DigestOk (List.replicate 348 0) := by decide +kernel
  exact absurd (h hbad).1 (by decide +kernel)

end VendorAmlogic.Hdcp.Rx14
