import VendorAmlogic.Lib.Bytes

/-!
# Decryption in CBC mode

Blocks of sixteen bytes under any function of a block. Each block is decrypted
by itself and combined with the block before it, the first one with the initial
vector.
-/

namespace VendorAmlogic.Lib

variable (ecb : List Byte → List Byte)

/-- Sixteen bytes of a block and of another. -/
def xorBlock (x y : List Byte) : List Byte := (List.range 16).map fun i => x.getD i 0 ^^^ y.getD i 0

@[simp] theorem length_xorBlock (x y : List Byte) : (xorBlock x y).length = 16 := by
  simp [xorBlock]

def blockAt (c : List Byte) (k : Nat) : List Byte := (c.drop (16 * k)).take 16

/-- The block in front of block `k`. -/
def blockBefore (iv c : List Byte) : Nat → List Byte
  | 0 => iv
  | k + 1 => blockAt c k

def cbcDecrypt (iv c : List Byte) : List Byte :=
  (List.range (c.length / 16)).flatMap fun k => xorBlock (ecb (blockAt c k)) (blockBefore iv c k)

variable {ecb}

@[simp] theorem cbcDecrypt_nil (iv : List Byte) : cbcDecrypt ecb iv [] = [] := rfl

theorem blockAt_append_succ {x : List Byte} (hx : x.length = 16) (c : List Byte) (k : Nat) :
    blockAt (x ++ c) (k + 1) = blockAt c k := by
  rw [blockAt, Nat.mul_add, Nat.mul_one, Nat.add_comm, ← List.drop_drop, ← hx, List.drop_left, hx]
  rfl

theorem blockAt_append_zero {x : List Byte} (hx : x.length = 16) (c : List Byte) :
    blockAt (x ++ c) 0 = x := by
  rw [blockAt, Nat.mul_zero, List.drop_zero, ← hx, List.take_left]

/-- The first block, and the rest with that block in front of it. -/
theorem cbcDecrypt_append {x : List Byte} (hx : x.length = 16) (iv c : List Byte) :
    cbcDecrypt ecb iv (x ++ c) = xorBlock (ecb x) iv ++ cbcDecrypt ecb x c := by
  have hlen : (x ++ c).length / 16 = c.length / 16 + 1 := by
    rw [List.length_append, hx]
    omega
  unfold cbcDecrypt
  rw [hlen, List.range_succ_eq_map, List.flatMap_cons, blockAt_append_zero hx, List.flatMap_map]
  congr 1
  refine List.flatMap_congr fun k _ => ?_
  rw [blockAt_append_succ hx]
  cases k with
  | zero => rw [blockBefore, blockBefore, blockAt_append_zero hx]
  | succ k => rw [blockBefore, blockBefore, blockAt_append_succ hx]

theorem length_cbcDecrypt (iv c : List Byte) :
    (cbcDecrypt ecb iv c).length = c.length / 16 * 16 := by
  unfold cbcDecrypt
  rw [List.length_flatMap]
  simp

end VendorAmlogic.Lib
