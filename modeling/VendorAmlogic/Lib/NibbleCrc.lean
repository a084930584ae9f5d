import VendorAmlogic.Lib.Bytes

/-!
# Checks by nibbles

A reflected cyclic redundancy check of 32 bits, four bits at a time from a table
of sixteen words. The top nibbles of the words tell which one was taken, so a
step can be undone: messages of one length that differ in one byte have
different remainders.
-/

namespace VendorAmlogic.Lib.NibbleCrc

variable {table : Nat → BitVec 32}

/-- Four bits of the message. -/
def nibble (table : Nat → BitVec 32) (c n : BitVec 32) : BitVec 32 :=
  (c >>> 4) ^^^ table ((c &&& 0xF) ^^^ n).toNat

/-- A byte of the message, the low nibble first. -/
def update (table : Nat → BitVec 32) (c : BitVec 32) (b : Byte) : BitVec 32 :=
  nibble table (nibble table c ((b &&& 0xF).setWidth 32)) ((b >>> 4).setWidth 32)

/-- The remainder of a message, from the remainder `init` of what came before it. -/
def remainder (table : Nat → BitVec 32) (init : BitVec 32) (message : List Byte) : BitVec 32 :=
  message.foldl (update table) init

/-- The words of the table differ in their top nibbles. -/
def Distinct (table : Nat → BitVec 32) : Prop :=
  ∀ i j, i < 16 → j < 16 → table i >>> 28 = table j >>> 28 → i = j

theorem remainder_append (init : BitVec 32) (a b : List Byte) :
    remainder table init (a ++ b) = remainder table (remainder table init a) b :=
  List.foldl_append

/-! ## Undoing a step -/

theorem toNat_and_low (c : BitVec 32) : (c &&& 0xF).toNat = c.toNat % 16 := by
  rw [BitVec.toNat_and]
  exact Nat.and_two_pow_sub_one_eq_mod c.toNat 4

theorem toNat_shift (c : BitVec 32) : (c >>> 4).toNat = c.toNat / 16 := by
  rw [BitVec.toNat_ushiftRight, Nat.shiftRight_eq_div_pow]

theorem eq_of_parts {c d : BitVec 32} (hhigh : c >>> 4 = d >>> 4) (hlow : c &&& 0xF = d &&& 0xF) :
    c = d := by
  have h1 := congrArg BitVec.toNat hhigh
  have h2 := congrArg BitVec.toNat hlow
  rw [toNat_shift, toNat_shift] at h1
  rw [toNat_and_low, toNat_and_low] at h2
  exact BitVec.eq_of_toNat_eq (by omega)

/-- The index of the word that is taken. -/
theorem index_lt (c : BitVec 32) {n : BitVec 32} (hn : n.toNat < 16) :
    ((c &&& 0xF) ^^^ n).toNat < 16 := by
  have hlow : (c &&& 0xF).toNat < 2 ^ 4 := by
    rw [toNat_and_low]
    omega
  rw [BitVec.toNat_xor]
  exact Nat.xor_lt_two_pow hlow hn

theorem xor_left_cancel {a b c : BitVec 32} (h : a ^^^ b = a ^^^ c) : b = c := by
  have := congrArg (a ^^^ ·) h
  simpa only [← BitVec.xor_assoc, BitVec.xor_self, BitVec.zero_xor] using this

theorem xor_right_cancel {a b c : BitVec 32} (h : a ^^^ c = b ^^^ c) : a = b := by
  rw [BitVec.xor_comm a, BitVec.xor_comm b] at h
  exact xor_left_cancel h

/-- The top nibble of a remainder is that of the word. -/
theorem nibble_top (c n : BitVec 32) :
    nibble table c n >>> 28 = table ((c &&& 0xF) ^^^ n).toNat >>> 28 := by
  have hclear : (c >>> 4) >>> 28 = 0 := by
    rw [← BitVec.shiftRight_add]
    exact BitVec.ushiftRight_eq_zero (by omega)
  rw [nibble, BitVec.ushiftRight_xor_distrib, hclear]
  exact BitVec.zero_xor

/-- A step is undone, up to what goes into the index. -/
theorem nibble_inj (ht : Distinct table) {c d n m : BitVec 32} (hn : n.toNat < 16)
    (hm : m.toNat < 16) (h : nibble table c n = nibble table d m) :
    c >>> 4 = d >>> 4 ∧ (c &&& 0xF) ^^^ n = (d &&& 0xF) ^^^ m := by
  have htop : nibble table c n >>> 28 = nibble table d m >>> 28 := by rw [h]
  rw [nibble_top, nibble_top] at htop
  have hindex := ht _ _ (index_lt c hn) (index_lt d hm) htop
  refine ⟨?_, BitVec.eq_of_toNat_eq hindex⟩
  rw [nibble, nibble, hindex] at h
  exact xor_right_cancel h

theorem toNat_nibbles (b : Byte) :
    ((b &&& 0xF).setWidth 32).toNat = b.toNat % 16 ∧
      ((b >>> 4).setWidth 32).toNat = b.toNat / 16 := by
  revert b
  decide

theorem nibbles_lt (b : Byte) :
    ((b &&& 0xF).setWidth 32).toNat < 16 ∧ ((b >>> 4).setWidth 32).toNat < 16 := by
  obtain ⟨hlow, hhigh⟩ := toNat_nibbles b
  have := b.isLt
  omega

/-- The same byte from different remainders. -/
theorem update_inj_left (ht : Distinct table) {c d : BitVec 32} {b : Byte}
    (h : update table c b = update table d b) : c = d := by
  obtain ⟨hlow, hhigh⟩ := nibbles_lt b
  obtain ⟨h1, h2⟩ := nibble_inj ht hhigh hhigh h
  have hmid := eq_of_parts h1 (xor_right_cancel h2)
  obtain ⟨h3, h4⟩ := nibble_inj ht hlow hlow hmid
  exact eq_of_parts h3 (xor_right_cancel h4)

/-- Different bytes from the same remainder. -/
theorem update_inj_right (ht : Distinct table) {c : BitVec 32} {a b : Byte}
    (h : update table c a = update table c b) : a = b := by
  obtain ⟨ha, ha'⟩ := nibbles_lt a
  obtain ⟨hb, hb'⟩ := nibbles_lt b
  obtain ⟨h1, h2⟩ := nibble_inj ht ha' hb' h
  -- what is left of the first nibbles still has the tops of their words
  have htop : nibble table c ((a &&& 0xF).setWidth 32) >>> 28 =
      nibble table c ((b &&& 0xF).setWidth 32) >>> 28 := by
    rw [show 28 = 4 + 24 from rfl, BitVec.shiftRight_add, BitVec.shiftRight_add, h1]
  rw [nibble_top, nibble_top] at htop
  have hlow := xor_left_cancel (BitVec.eq_of_toNat_eq (ht _ _ (index_lt c ha) (index_lt c hb) htop))
  rw [hlow] at h2
  have hhigh := xor_left_cancel h2
  obtain ⟨ha1, ha2⟩ := toNat_nibbles a
  obtain ⟨hb1, hb2⟩ := toNat_nibbles b
  rw [hlow] at ha1
  rw [hhigh] at ha2
  exact BitVec.eq_of_toNat_eq (by omega)

/-- **One byte**: a message with another byte in one place has another remainder. -/
theorem remainder_ne (ht : Distinct table) (init : BitVec 32) (front back : List Byte) {a b : Byte}
    (hab : a ≠ b) :
    remainder table init (front ++ a :: back) ≠ remainder table init (front ++ b :: back) := by
  have hback : ∀ (m : List Byte) (c d : BitVec 32), c ≠ d →
      remainder table c m ≠ remainder table d m := by
    intro m
    induction m with
    | nil => exact fun c d h => h
    | cons x m ih =>
      intro c d h
      exact ih _ _ fun heq => h (update_inj_left ht heq)
  rw [remainder_append, remainder_append]
  exact hback back _ _ fun heq => hab (update_inj_right ht heq)

end VendorAmlogic.Lib.NibbleCrc
