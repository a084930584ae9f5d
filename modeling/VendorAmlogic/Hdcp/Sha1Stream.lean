import Mathlib.Tactic
import VendorAmlogic.Lib.Blocks
import VendorAmlogic.Hdcp.Sha1

/-!
# SHA-1 of data in pieces

What `sha1_update` keeps of the data so far, and the digest of all of it: the padded message
taken in blocks of 64 bytes. `sha1_hmac` uses the first 64 bytes of a longer key.
-/

namespace VendorAmlogic.Hdcp.Sha1

open VendorAmlogic.Lib

/-! ## The digest of a message -/

/-- The padded message: a bit, zeros, and the number of bits in 64. -/
def padded (m : List Byte) : List Byte :=
  m ++ 0x80 :: List.replicate ((119 - m.length % 64) % 64) 0 ++
    putUint32Be (BitVec.ofNat 32 (8 * m.length / 2 ^ 32)) ++ putUint32Be (BitVec.ofNat 32 (8 * m.length))

def putWords (s : Words) : List Byte :=
  putUint32Be s.a ++ putUint32Be s.b ++ putUint32Be s.c ++ putUint32Be s.d ++ putUint32Be s.e

/-- The five words that SHA-1 begins with. -/
def startWords : Words := ⟨0x67452301, 0xEFCDAB89, 0x98BADCFE, 0x10325476, 0xC3D2E1F0⟩

/-- SHA-1 of a message. -/
def digest (m : List Byte) : List Byte := putWords (absorb sha1Process 64 startWords (padded m))

@[simp] theorem length_putUint32Be (n : Word) : (putUint32Be n).length = 4 := rfl

/-! ## The context -/

/-- The context has taken the message `m`. -/
structure Holds (ctx : Sha1Context) (m : List Byte) : Prop where
  total0 : ctx.total0 = m.length % 2 ^ 32
  total1 : ctx.total1 = m.length / 2 ^ 32
  length_buffer : ctx.buffer.length = 64
  buffer : ctx.buffer.take (m.length % 64) = leftover 64 m
  state : ctx.state = absorb sha1Process 64 startWords m

theorem holds_starts {buffer : List Byte} (h : buffer.length = 64) : Holds (sha1Starts buffer) [] where
  total0 := rfl
  total1 := rfl
  length_buffer := h
  buffer := rfl
  state := rfl

theorem processBlocks_eq (k : Nat) (s : Words) (xs : List Byte) :
    processBlocks k s xs = (absorbBlocks sha1Process 64 k s xs, xs.drop (64 * k)) := by
  induction k generalizing s xs with
  | zero => rfl
  | succ k ih =>
    rw [processBlocks, ih, absorbBlocks, List.drop_drop]
    congr 2
    omega

theorem processBlocks_div (s : Words) (xs : List Byte) :
    processBlocks (xs.length / 64) s xs = (absorb sha1Process 64 s xs, leftover 64 xs) :=
  processBlocks_eq _ s xs

/-- The number of bytes is counted right. -/
theorem Holds.count {ctx : Sha1Context} {m : List Byte} (h : Holds ctx m) {n : Nat} (hn : n < 2 ^ 32) :
    (ctx.total0 + n) % 2 ^ 32 = (m.length + n) % 2 ^ 32 ∧
      (if (ctx.total0 + n) % 2 ^ 32 < n then ctx.total1 + 1 else ctx.total1) = (m.length + n) / 2 ^ 32 := by
  rw [h.total0, h.total1]
  refine ⟨by omega, ?_⟩
  split <;> omega

/-- What is left of the message comes before the next piece. -/
theorem Holds.left {ctx : Sha1Context} {m : List Byte} (h : Holds ctx m) :
    ctx.total0 % 64 = m.length % 64 := by
  rw [h.total0]
  omega

theorem take_overwrite {b d : List Byte} {o : Nat} (ho : o ≤ b.length) :
    (overwrite b o d).take (o + d.length) = b.take o ++ d := by
  rw [overwrite_of_le ho, List.take_left']
  rw [List.length_append, List.length_take_of_le ho]

/-- **A piece is taken** as if it came with the message before it. -/
theorem Holds.update {ctx : Sha1Context} {m : List Byte} (h : Holds ctx m) (input : List Byte)
    (hlen : input.length < 2 ^ 32) : Holds (sha1Update ctx input) (m ++ input) := by
  obtain ⟨hcount0, hcount1⟩ := h.count hlen
  have hbuf := h.length_buffer
  have hlast : (leftover 64 m).length = m.length % 64 := length_leftover m
  obtain ⟨hstate, htail⟩ := absorb_append (f := sha1Process) (by decide : 0 < 64) startWords m input
  rw [← h.state] at hstate
  by_cases h0 : input.length = 0
  · rw [List.length_eq_zero_iff.mp h0, List.append_nil]
    exact h
  unfold sha1Update
  rw [if_neg h0]
  dsimp only
  rw [h.left]
  by_cases hfill : m.length % 64 ≠ 0 ∧ input.length ≥ 64 - m.length % 64
  · -- the buffer is filled up, and taken as a block
    have htake : (input.take (64 - m.length % 64)).length = 64 - m.length % 64 :=
      List.length_take_of_le hfill.2
    have hblock : (leftover 64 m ++ input.take (64 - m.length % 64)).length = 64 := by
      rw [List.length_append, hlast, htake]
      omega
    have hcut : leftover 64 m ++ input =
        (leftover 64 m ++ input.take (64 - m.length % 64)) ++ input.drop (64 - m.length % 64) := by
      rw [List.append_assoc, List.take_append_drop]
    rw [hcut, absorb_block (by decide) hblock] at hstate
    rw [hcut, leftover_block (by decide) hblock] at htail
    simp only [if_pos hfill, processBlocks_div, h.buffer]
    have hrest := length_leftover (n := 64) (input.drop (64 - m.length % 64))
    have hmod : (m ++ input).length % 64 = (leftover 64 (input.drop (64 - m.length % 64))).length := by
      rw [hrest, List.length_append, List.length_drop]
      omega
    have hover : (overwrite ctx.buffer (m.length % 64) (input.take (64 - m.length % 64))).length = 64 := by
      rw [length_overwrite, hbuf]
      omega
    refine ⟨?_, ?_, ?_, ?_, hstate.symm⟩
    · rw [hcount0, List.length_append]
    · rw [hcount1, List.length_append]
    · rw [length_overwrite, hover]
      omega
    · rw [hmod, htail]
      have ht := take_overwrite (b := overwrite ctx.buffer (m.length % 64)
        (input.take (64 - m.length % 64))) (d := leftover 64 (input.drop (64 - m.length % 64)))
        (Nat.zero_le _)
      rwa [Nat.zero_add, List.take_zero, List.nil_append] at ht
  · simp only [if_neg hfill, processBlocks_div]
    -- nothing was left of the message, or all of the piece goes behind it
    have hpiece : absorb sha1Process 64 ctx.state (leftover 64 m ++ input) =
          absorb sha1Process 64 ctx.state input ∧
        leftover 64 (leftover 64 m ++ input) = leftover 64 m ++ leftover 64 input ∧
        m.length % 64 + (leftover 64 input).length < 64 := by
      rw [length_leftover]
      by_cases hzero : m.length % 64 = 0
      · have hnil : leftover 64 m = [] := List.length_eq_zero_iff.mp (hlast.trans hzero)
        rw [hnil, hzero]
        exact ⟨rfl, rfl, by omega⟩
      · have hshort : input.length < 64 := by omega
        have hboth : (leftover 64 m ++ input).length < 64 := by
          rw [List.length_append, hlast]
          omega
        rw [absorb_of_lt hboth, leftover_of_lt hboth, absorb_of_lt hshort, leftover_of_lt hshort]
        exact ⟨rfl, rfl, by omega⟩
    have hmod : (m ++ input).length % 64 = m.length % 64 + (leftover 64 input).length := by
      have hl := length_leftover (n := 64) input
      have := hpiece.2.2
      rw [List.length_append]
      omega
    refine ⟨?_, ?_, ?_, ?_, ?_⟩
    · rw [hcount0, List.length_append]
    · rw [hcount1, List.length_append]
    · rw [length_overwrite, hbuf]
      omega
    · rw [hmod, htail, hpiece.2.1, take_overwrite (by omega), h.buffer]
    · rw [hstate, hpiece.1]

theorem Holds.foldl {cs : List (List Byte)} {ctx : Sha1Context} {m : List Byte} (h : Holds ctx m)
    (hcs : ∀ c ∈ cs, c.length < 2 ^ 32) : Holds (cs.foldl sha1Update ctx) (m ++ cs.flatten) := by
  induction cs generalizing ctx m with
  | nil =>
    rw [List.flatten_nil, List.append_nil]
    exact h
  | cons c cs ih =>
    rw [List.foldl_cons, List.flatten_cons, ← List.append_assoc]
    exact ih (h.update c (hcs c List.mem_cons_self)) fun c' hc' => hcs c' (List.mem_cons_of_mem c hc')

/-! ## The digest -/

/-- `high` and `low` of `sha1_finish`. -/
theorem Holds.bits {ctx : Sha1Context} {m : List Byte} (h : Holds ctx m) :
    (ctx.total0 / 2 ^ 29 ||| ctx.total1 * 8) = 8 * m.length / 2 ^ 32 ∧
      BitVec.ofNat 32 (ctx.total0 * 8) = BitVec.ofNat 32 (8 * m.length) := by
  rw [h.total0, h.total1]
  constructor
  · have hlow : m.length % 2 ^ 32 / 2 ^ 29 < 2 ^ 3 := by omega
    rw [Nat.or_comm, Nat.mul_comm, ← Nat.two_pow_add_eq_or_of_lt hlow]
    omega
  · apply BitVec.eq_of_toNat_eq
    rw [BitVec.toNat_ofNat, BitVec.toNat_ofNat]
    omega

/-- The bytes that `sha1_finish` pads with. -/
theorem padding_eq (m : List Byte) :
    sha1Padding.take (if m.length % 64 < 56 then 56 - m.length % 64 else 120 - m.length % 64) =
      0x80 :: List.replicate ((119 - m.length % 64) % 64) 0 := by
  have hpad : ∀ n ≤ 63, sha1Padding.take (n + 1) = 0x80 :: List.replicate n 0 := by
    intro n hn
    rw [sha1Padding, List.take_succ_cons, List.take_replicate, Nat.min_eq_left hn]
  rw [← hpad _ (by omega)]
  congr 1
  split <;> omega

/-- **The digest** that the context gives is that of the message it has taken. -/
theorem Holds.finish {ctx : Sha1Context} {m : List Byte} (h : Holds ctx m) :
    sha1Finish ctx = digest m := by
  obtain ⟨hhigh, hlow⟩ := h.bits
  have hpad : (0x80 :: List.replicate ((119 - m.length % 64) % 64) 0 : List Byte).length < 2 ^ 32 := by
    rw [List.length_cons, List.length_replicate]
    omega
  have hlast := (h.update _ hpad).update (putUint32Be (BitVec.ofNat 32 (8 * m.length / 2 ^ 32)) ++
    putUint32Be (BitVec.ofNat 32 (8 * m.length))) (by simp)
  have hpadded : padded m = _ := List.append_assoc ..
  unfold sha1Finish digest
  dsimp only
  rw [hhigh, hlow, h.left, padding_eq, hlast.state, hpadded]
  rfl

/-- **SHA-1 does not depend on the pieces** in which the message comes: whatever the pieces and
whatever was in the buffer, the digest is that of the padded message. -/
theorem sha1Finish_foldl (cs : List (List Byte)) {buffer : List Byte} (hb : buffer.length = 64)
    (hcs : ∀ c ∈ cs, c.length < 2 ^ 31) :
    sha1Finish (cs.foldl sha1Update (sha1Starts buffer)) = digest cs.flatten := by
  have h := (holds_starts hb).foldl fun c hc => (hcs c hc).trans (by norm_num)
  exact h.finish

theorem sha1Finish_foldl_abc :
    sha1Finish ([bytes "a", [], bytes "bc"].foldl sha1Update (sha1Starts (List.replicate 64 7))) =
      digest (bytes "abc") :=
  sha1Finish_foldl [bytes "a", [], bytes "bc"] List.length_replicate (by decide)

/-! ## Keyed digests -/

/-- `k_ipad` or `k_opad` of `sha1_hmac`, from `pad`. -/
def hmacPad (pad : Byte) (key : List Byte) : List Byte :=
  (List.range 64).map fun i => if i < key.length then pad ^^^ key.getD i 0 else pad

/-- `sha1_hmac`; before the two passes the context has `buffer` and `buffer'` in its buffer. -/
def sha1Hmac (buffer buffer' key input : List Byte) : List Byte :=
  let tmpbuf := sha1Finish (sha1Update (sha1Update (sha1Starts buffer) (hmacPad 0x36 key)) input)
  sha1Finish (sha1Update (sha1Update (sha1Starts buffer') (hmacPad 0x5C key)) tmpbuf)

/-- The key in a block of 64 bytes: cut, or filled up with zeros. -/
def keyBlock (key : List Byte) : List Byte := key.take 64 ++ List.replicate (64 - key.length) 0

theorem length_keyBlock (key : List Byte) : (keyBlock key).length = 64 := by
  rw [keyBlock, List.length_append, List.length_take, List.length_replicate]
  omega

theorem hmacPad_eq (pad : Byte) (key : List Byte) : hmacPad pad key = (keyBlock key).map (pad ^^^ ·) := by
  apply List.ext_getElem
  · rw [hmacPad, List.length_map, List.length_range, List.length_map, length_keyBlock]
  · intro i h _
    have hi : i < 64 := by simpa [hmacPad] using h
    rw [List.getElem_map]
    simp only [hmacPad, List.getElem_map, List.getElem_range, keyBlock]
    split
    next hk =>
      rw [List.getElem_append_left (by rw [List.length_take]; omega), List.getElem_take]
      simp only [List.getD_eq_getElem?_getD, List.getElem?_eq_getElem hk, Option.getD_some]
    next hk =>
      rw [List.getElem_append_right (by rw [List.length_take]; omega), List.getElem_replicate]
      exact BitVec.xor_zero.symm

theorem length_digest (m : List Byte) : (digest m).length = 20 := rfl

/-- **A keyed digest** is the digest of the outer key block and the digest of the inner key block and
the message, with the first 64 bytes of a longer key. -/
theorem sha1Hmac_eq {buffer buffer' : List Byte} (hb : buffer.length = 64) (hb' : buffer'.length = 64)
    (key : List Byte) {input : List Byte} (hi : input.length < 2 ^ 31) :
    sha1Hmac buffer buffer' key input =
      digest ((keyBlock key).map (0x5C ^^^ ·) ++ digest ((keyBlock key).map (0x36 ^^^ ·) ++ input)) := by
  have hkey : ∀ pad, (hmacPad pad key).length < 2 ^ 32 := by
    intro pad
    rw [hmacPad, List.length_map, List.length_range]
    norm_num
  have hinner := (((holds_starts hb).update _ (hkey 0x36)).update _ (hi.trans (by norm_num))).finish
  have houter := (((holds_starts hb').update _ (hkey 0x5C)).update
    (digest (hmacPad 0x36 key ++ input)) (by rw [length_digest]; norm_num)).finish
  rw [List.nil_append] at hinner houter
  unfold sha1Hmac
  dsimp only
  rw [hinner, houter, hmacPad_eq, hmacPad_eq]

theorem sha1Hmac_jefe :
    sha1Hmac (List.replicate 64 1) (List.replicate 64 2) (bytes "Jefe") (bytes "what") =
      digest ((keyBlock (bytes "Jefe")).map (0x5C ^^^ ·) ++
        digest ((keyBlock (bytes "Jefe")).map (0x36 ^^^ ·) ++ bytes "what")) :=
  sha1Hmac_eq List.length_replicate List.length_replicate (bytes "Jefe") (by decide)

end VendorAmlogic.Hdcp.Sha1
