import Mathlib.Tactic
import VendorAmlogic.Lib.Bytes

/-!
# SHA-1

`systemcontrol/HDCP/sha1.cpp`. A word is its low 32 bits; what a wider
`unsigned long` has above them is never used.
-/

namespace VendorAmlogic.Hdcp.Sha1

open VendorAmlogic.Lib

abbrev Word := BitVec 32

/-- `A` to `E`, and the five words of `state`. -/
structure Words where
  a : Word
  b : Word
  c : Word
  d : Word
  e : Word
  deriving DecidableEq

/-- `sha1_context`. -/
structure Sha1Context where
  total0 : Nat
  total1 : Nat
  state : Words
  buffer : List Byte

/-- `sha1_starts`; the buffer is not set. -/
def sha1Starts (buffer : List Byte) : Sha1Context :=
  ⟨0, 0, ⟨0x67452301, 0xEFCDAB89, 0x98BADCFE, 0x10325476, 0xC3D2E1F0⟩, buffer⟩

/-! ## Blocks -/

/-- `GET_UINT32_BE`. -/
def getUint32Be (b : List Byte) (i : Nat) : Word :=
  (b.getD i 0).setWidth 32 <<< 24 ||| (b.getD (i + 1) 0).setWidth 32 <<< 16 |||
    (b.getD (i + 2) 0).setWidth 32 <<< 8 ||| (b.getD (i + 3) 0).setWidth 32

/-- `PUT_UINT32_BE`. -/
def putUint32Be (n : Word) : List Byte :=
  [(n >>> 24).setWidth 8, (n >>> 16).setWidth 8, (n >>> 8).setWidth 8, n.setWidth 8]

/-- `F` and `K` of a round. -/
def roundF (t : Nat) (x y z : Word) : Word :=
  if t < 20 then z ^^^ (x &&& (y ^^^ z))
  else if t < 40 then x ^^^ y ^^^ z
  else if t < 60 then (x &&& y) ||| (z &&& (x ||| y))
  else x ^^^ y ^^^ z

def roundK (t : Nat) : Word :=
  if t < 20 then 0x5A827999
  else if t < 40 then 0x6ED9EBA1
  else if t < 60 then 0x8F1BBCDC
  else 0xCA62C1D6

/-- `R(t)`, the word that is stored into `W`. -/
def nextWord (w : List Word) (t : Nat) : Word :=
  (w.getD ((t - 3) % 16) 0 ^^^ w.getD ((t - 8) % 16) 0 ^^^ w.getD ((t - 14) % 16) 0 ^^^
    w.getD (t % 16) 0).rotateLeft 1

/-- `P(a, b, c, d, e, x)`; the next one has the names one place on. -/
def roundStep (t : Nat) (s : Words) (x : Word) : Words :=
  ⟨s.e + (s.a.rotateLeft 5 + roundF t s.b s.c s.d + roundK t + x), s.a, s.b.rotateLeft 30, s.c, s.d⟩

/-- The rounds from `t` on, `n` of them. -/
def rounds : Nat → Nat → List Word → Words → Words
  | 0, _, _, s => s
  | n + 1, t, w, s =>
    let w := if t < 16 then w else w.set (t % 16) (nextWord w t)
    rounds n (t + 1) w (roundStep t s (w.getD (t % 16) 0))

def sha1Process (s : Words) (data : List Byte) : Words :=
  let r := rounds 80 0 ((List.range 16).map fun i => getUint32Be data (4 * i)) s
  ⟨s.a + r.a, s.b + r.b, s.c + r.c, s.d + r.d, s.e + r.e⟩

/-! ## Streams -/

/-- The loop of `sha1_update` over whole blocks, and what is left. -/
def processBlocks : Nat → Words → List Byte → Words × List Byte
  | 0, s, input => (s, input)
  | n + 1, s, input => processBlocks n (sha1Process s (input.take 64)) (input.drop 64)

def sha1Update (ctx : Sha1Context) (input : List Byte) : Sha1Context :=
  let ilen := input.length
  if ilen = 0 then ctx
  else
    let left := ctx.total0 % 64
    let fill := 64 - left
    let total0 := (ctx.total0 + ilen) % 2 ^ 32
    let total1 := if total0 < ilen then ctx.total1 + 1 else ctx.total1
    let filled := left ≠ 0 ∧ ilen ≥ fill
    let state :=
      if filled then sha1Process ctx.state (ctx.buffer.take left ++ input.take fill) else ctx.state
    let buffer := if filled then overwrite ctx.buffer left (input.take fill) else ctx.buffer
    let rest := if filled then input.drop fill else input
    let (state, rest) := processBlocks (rest.length / 64) state rest
    ⟨total0, total1, state, overwrite buffer (if filled then 0 else left) rest⟩

def sha1Padding : List Byte := 0x80 :: List.replicate 63 0

def sha1Finish (ctx : Sha1Context) : List Byte :=
  let high := ctx.total0 / 2 ^ 29 ||| ctx.total1 * 8
  let low := ctx.total0 * 8
  let msglen := putUint32Be (BitVec.ofNat 32 high) ++ putUint32Be (BitVec.ofNat 32 low)
  let last := ctx.total0 % 64
  let padn := if last < 56 then 56 - last else 120 - last
  let s := (sha1Update (sha1Update ctx (sha1Padding.take padn)) msglen).state
  putUint32Be s.a ++ putUint32Be s.b ++ putUint32Be s.c ++ putUint32Be s.d ++ putUint32Be s.e

def sha1Csum (input : List Byte) : List Byte :=
  sha1Finish (sha1Update (sha1Starts (List.replicate 64 0)) input)

theorem length_sha1Csum (input : List Byte) : (sha1Csum input).length = 20 := rfl

example : sha1Csum (bytes "abc") =
    [0xa9, 0x99, 0x3e, 0x36, 0x47, 0x06, 0x81, 0x6a, 0xba, 0x3e, 0x25, 0x71, 0x78, 0x50, 0xc2, 0x6c,
      0x9c, 0xd0, 0xd8, 0x9d] := by
  decide +kernel

end VendorAmlogic.Hdcp.Sha1
