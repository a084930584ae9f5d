import VendorAmlogic.Lib.Bytes

/-!
# Cyclic redundancy checks

The remainder of a message of bytes by a polynomial of degree 32, with the
highest bit first and nothing reflected. A step of the division is linear in
exclusive or, so a whole byte can be taken from a table; a message that is
followed by its own remainder has the remainder zero.
-/

namespace VendorAmlogic.Lib.Crc

variable {poly : BitVec 32}

/-- A step of the division: the bit that leaves at the top takes the polynomial with it. -/
def shift (poly c : BitVec 32) : BitVec 32 := (c <<< 1) ^^^ (if c.msb then poly else 0)

def shifts (poly : BitVec 32) : Nat → BitVec 32 → BitVec 32
  | 0, c => c
  | n + 1, c => shift poly (shifts poly n c)

/-- A byte of the message. -/
def update (poly c : BitVec 32) (b : Byte) : BitVec 32 := shifts poly 8 (c ^^^ (b.setWidth 32 <<< 24))

/-- The remainder of a message, from the remainder `init` of what came before it. -/
def remainder (poly init : BitVec 32) (message : List Byte) : BitVec 32 :=
  message.foldl (update poly) init

/-- A remainder as the bytes of a message. -/
def toBytes (c : BitVec 32) : List Byte :=
  [(c >>> 24).setWidth 8, (c >>> 16).setWidth 8, (c >>> 8).setWidth 8, c.setWidth 8]

theorem shift_xor (a b : BitVec 32) : shift poly (a ^^^ b) = shift poly a ^^^ shift poly b := by
  have hpoly : (if a.msb ^^ b.msb then poly else 0) =
      (if a.msb then poly else 0) ^^^ (if b.msb then poly else 0) := by
    cases a.msb <;> cases b.msb <;> simp
  rw [shift, shift, shift, BitVec.shiftLeft_xor_distrib, BitVec.msb_xor, hpoly]
  ac_rfl

theorem shifts_xor (n : Nat) (a b : BitVec 32) :
    shifts poly n (a ^^^ b) = shifts poly n a ^^^ shifts poly n b := by
  induction n with
  | zero => rfl
  | succ n ih => rw [shifts, ih, shift_xor, shifts, shifts]

/-- While the top is clear the steps only move the remainder up. -/
theorem shifts_of_clear {c : BitVec 32} {n : Nat} (h : ∀ i, 32 ≤ i + n → c.getLsbD i = false) :
    shifts poly n c = c <<< n := by
  induction n with
  | zero => simp [shifts]
  | succ n ih =>
    have hmsb : (c <<< n).msb = false := by
      rw [BitVec.msb_eq_getLsbD_last, BitVec.getLsbD_shiftLeft, h _ (by omega), Bool.and_false]
    rw [shifts, ih fun i hi => h i (by omega), shift, hmsb]
    simp [BitVec.shiftLeft_add]

/-- The part of a remainder that a byte does not reach, and the part that it does. -/
theorem split_top (c : BitVec 32) (b : Byte) :
    c ^^^ (b.setWidth 32 <<< 24) =
      ((c <<< 8) >>> 8) ^^^ (((c >>> 24) ^^^ b.setWidth 32) <<< 24) := by
  apply BitVec.eq_of_getLsbD_eq
  intro i hi
  simp only [BitVec.getLsbD_xor, BitVec.getLsbD_shiftLeft, BitVec.getLsbD_ushiftRight,
    BitVec.getLsbD_setWidth]
  by_cases hlow : i < 24
  · simp [hlow, hi, show 8 + i < 32 by omega, show 8 + i - 8 = i by omega]
  · simp [hlow, hi, show ¬ 8 + i < 32 by omega, show 24 + (i - 24) = i by omega]

/-- A byte at a time from a table. -/
theorem update_eq (c : BitVec 32) (b : Byte) :
    update poly c b = (c <<< 8) ^^^ shifts poly 8 (((c >>> 24) ^^^ b.setWidth 32) <<< 24) := by
  have hclear : ∀ i, 32 ≤ i + 8 → ((c <<< 8) >>> 8).getLsbD i = false := by
    intro i hi
    rw [BitVec.getLsbD_ushiftRight, BitVec.getLsbD_of_ge _ _ (by omega)]
  have hback : (c <<< 8) >>> 8 <<< 8 = c <<< 8 := by
    apply BitVec.eq_of_getLsbD_eq
    intro i hi
    simp only [BitVec.getLsbD_shiftLeft, BitVec.getLsbD_ushiftRight]
    by_cases hlow : i < 8
    · simp [hlow]
    · simp [hlow, hi, show 8 + (i - 8) = i by omega]
  rw [update, split_top, shifts_xor, shifts_of_clear hclear, hback]

/-- The byte at the top of a remainder takes it out. -/
theorem update_top (c : BitVec 32) : update poly c ((c >>> 24).setWidth 8) = c <<< 8 := by
  have hsame : (c >>> 24) ^^^ ((c >>> 24).setWidth 8).setWidth 32 = 0 := by
    apply BitVec.eq_of_getLsbD_eq
    intro i hi
    simp only [BitVec.getLsbD_xor, BitVec.getLsbD_setWidth, BitVec.getLsbD_ushiftRight]
    by_cases hlow : i < 8
    · simp [hlow, hi]
    · simp [hlow, BitVec.getLsbD_of_ge c (24 + i) (by omega)]
  have hzero : shifts poly 8 ((0 : BitVec 32) <<< 24) = 0 := by
    rw [shifts_of_clear fun i _ => by simp]
    simp
  rw [update_eq, hsame, hzero]
  exact BitVec.xor_zero

theorem top_shiftLeft (c : BitVec 32) {n : Nat} (h : n ≤ 24) :
    ((c <<< n) >>> 24).setWidth 8 = (c >>> (24 - n)).setWidth 8 := by
  apply BitVec.eq_of_getLsbD_eq
  intro i hi
  simp only [BitVec.getLsbD_setWidth, BitVec.getLsbD_ushiftRight, BitVec.getLsbD_shiftLeft]
  simp [hi, show 24 + i < 32 by omega, show ¬ 24 + i < n by omega,
    show 24 + i - n = 24 - n + i by omega]

/-- A remainder taken through its own bytes is zero. -/
theorem remainder_toBytes (c : BitVec 32) : remainder poly c (toBytes c) = 0 := by
  have hnext (n : Nat) (h : n ≤ 24) :
      update poly (c <<< n) ((c >>> (24 - n)).setWidth 8) = c <<< (n + 8) := by
    rw [← top_shiftLeft c h, update_top, BitVec.shiftLeft_add]
  have h0 := hnext 0 (by omega)
  have h1 := hnext 8 (by omega)
  have h2 := hnext 16 (by omega)
  have h3 := hnext 24 (by omega)
  simp only [BitVec.shiftLeft_zero, Nat.sub_zero, Nat.reduceSub, Nat.reduceAdd,
    BitVec.ushiftRight_zero] at h0 h1 h2 h3
  rw [remainder, toBytes, List.foldl_cons, h0, List.foldl_cons, h1, List.foldl_cons, h2,
    List.foldl_cons, h3, List.foldl_nil]
  exact BitVec.shiftLeft_eq_zero (by omega)

/-- A message followed by its own remainder. -/
theorem remainder_append_self (init : BitVec 32) (message : List Byte) :
    remainder poly init (message ++ toBytes (remainder poly init message)) = 0 := by
  rw [remainder, List.foldl_append]
  exact remainder_toBytes _

end VendorAmlogic.Lib.Crc
