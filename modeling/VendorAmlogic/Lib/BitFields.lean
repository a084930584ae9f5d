import VendorAmlogic.Lib.Mem

/-!
# Nibbles of a memory, and pairs of bits in words

`number m q n` is what `n` nibbles from nibble `q` on spell, the high half of a
byte first. `pair w k` is field `k` of a word of sixteen bits, from the top; `pairAt`
counts such fields through a memory of words.
-/


namespace VendorAmlogic.Lib

/-! ## Nibbles -/

def nibble (m : Mem) (q : Nat) : Nat :=
  if q % 2 = 0 then (m (q / 2)).toNat / 16 else (m (q / 2)).toNat % 16

def number (m : Mem) (q : Nat) : Nat → Nat
  | 0 => 0
  | n + 1 => number m q n * 16 + nibble m (q + n)

section
variable (m : Mem) (q n k : Nat)

theorem nibble_lt : nibble m q < 16 := by
  have hlt := (m (q / 2)).isLt
  unfold nibble
  split <;> omega

theorem nibble_even : nibble m (2 * q) = (m q).toNat / 16 := by
  rw [nibble, if_pos (by omega), Nat.mul_div_cancel_left q (by omega)]

theorem nibble_odd : nibble m (2 * q + 1) = (m q).toNat % 16 := by
  rw [nibble, if_neg (by omega), show (2 * q + 1) / 2 = q by omega]

theorem number_lt : number m q n < 16 ^ n := by
  induction n with
  | zero => exact Nat.one_pos
  | succ n ih =>
    have hlt := nibble_lt m (q + n)
    rw [number, Nat.pow_succ]
    omega

theorem number_add : number m q (n + k) = number m q n * 16 ^ k + number m (q + n) k := by
  induction k with
  | zero => rw [Nat.pow_zero, Nat.mul_one]; rfl
  | succ k ih =>
    rw [← Nat.add_assoc, number, ih, number, Nat.pow_succ, ← Nat.add_assoc q]
    ring

/-- The first nibbles are the highest. -/
theorem number_div : number m q (n + k) / 16 ^ k = number m q n := by
  rw [number_add, Nat.add_comm, Nat.add_mul_div_right _ _ (Nat.pow_pos (by decide)),
    Nat.div_eq_of_lt (number_lt ..), Nat.zero_add]

variable {m q n}

theorem number_eq_zero (h : ∀ i, i < n → nibble m (q + i) = 0) : number m q n = 0 := by
  induction n with
  | zero => rfl
  | succ n ih =>
    rw [number, ih fun i hi => h i (by omega), h n (Nat.lt_succ_self n)]

end

/-- Two bytes. -/
theorem number_byte (m : Mem) (q : Nat) : number m (2 * q) 2 = (m q).toNat := by
  rw [number, number, number, Nat.add_zero, nibble_even, nibble_odd]
  omega

theorem number_two_bytes (m : Mem) (q : Nat) :
    number m (2 * q) 4 = (m q).toNat * 256 + (m (q + 1)).toNat := by
  have h := number_add m (2 * q) 2 2
  rwa [number_byte, show 2 * q + 2 = 2 * (q + 1) by omega, number_byte] at h

theorem number_odd (m : Mem) (q : Nat) :
    number m (2 * q + 1) 4 =
      (m q).toNat % 16 * 4096 + (m (q + 1)).toNat * 16 + (m (q + 2)).toNat / 16 := by
  have h := number_add m (2 * q + 1) 1 3
  have h' := number_add m (2 * q + 1 + 1) 2 1
  have hlast : number m (2 * q + 1 + 1 + 2) 1 = (m (q + 2)).toNat / 16 := by
    rw [number, number, Nat.zero_mul, Nat.zero_add, Nat.add_zero,
      show 2 * q + 1 + 1 + 2 = 2 * (q + 2) by omega, nibble_even]
  have hfirst : number m (2 * q + 1) 1 = (m q).toNat % 16 := by
    rw [number, number, Nat.zero_mul, Nat.zero_add, Nat.add_zero, nibble_odd]
  rw [hlast, show 2 * q + 1 + 1 = 2 * (q + 1) by omega, number_byte] at h'
  rw [show 2 * q + 1 + 1 = 2 * (q + 1) by omega, h', hfirst] at h
  rw [h]
  omega

/-! ## Pairs of bits -/

def pair (w k : Nat) : Nat := w >>> (14 - 2 * k) % 4

/-- Field `i` of a memory of words. -/
def pairAt (m : Nat → Nat) (i : Nat) : Nat := pair (m (i / 8)) (i % 8)

@[simp] theorem pairAt_zero (i : Nat) : pairAt (fun _ => 0) i = 0 := by
  simp [pairAt, pair]

/-- Bits that are set in one field. -/
theorem pair_or (w : Nat) {i k v : Nat} (hi : i < 8) (hk : k < 8) (hv : v < 4) :
    pair (w ||| v <<< (14 - 2 * k)) i = if i = k then pair w i ||| v else pair w i := by
  have hhigh : ∀ j, 2 ≤ j → v.testBit j = false := fun j hj =>
    Nat.testBit_lt_two_pow (lt_of_lt_of_le hv (Nat.pow_le_pow_right Nat.two_pos hj))
  unfold pair
  apply Nat.eq_of_testBit_eq
  intro j
  rw [show (4 : Nat) = 2 ^ 2 from rfl]
  by_cases hik : i = k
  · subst hik
    rw [if_pos rfl]
    simp only [Nat.testBit_mod_two_pow, Nat.testBit_shiftRight, Nat.testBit_or,
      Nat.testBit_shiftLeft]
    by_cases hj : j < 2
    · simp [hj]
    · simp [hj, hhigh j (by omega)]
  · rw [if_neg hik]
    simp only [Nat.testBit_mod_two_pow, Nat.testBit_shiftRight, Nat.testBit_or,
      Nat.testBit_shiftLeft]
    by_cases hj : j < 2
    · by_cases hle : 14 - 2 * k ≤ 14 - 2 * i + j
      · rw [hhigh _ (by omega), Bool.and_false, Bool.or_false]
      · simp [hle]
    · simp [hj]

/-- Field `i` is set, in a word of the memory. -/
def putPair (m : Nat → Nat) (i v : Nat) : Nat → Nat :=
  Function.update m (i / 8) (m (i / 8) ||| v <<< (14 - 2 * (i % 8)))

theorem pairAt_putPair (m : Nat → Nat) (i : Nat) {v : Nat} (hv : v < 4) (j : Nat) :
    pairAt (putPair m i v) j = if j = i then pairAt m i ||| v else pairAt m j := by
  unfold pairAt putPair
  by_cases hw : j / 8 = i / 8
  · rw [hw, Function.update_self, pair_or _ (by omega) (by omega) hv]
    by_cases hij : j = i
    · rw [if_pos hij, if_pos (by rw [hij]), hij]
    · rw [if_neg hij, if_neg (by omega)]
  · rw [Function.update_of_ne hw, if_neg fun h => hw (by rw [h])]

/-! ## Words as bytes -/

/-- Byte `b` of a memory of words, the low byte first. -/
def wordByte (m : Nat → Nat) (b : Nat) : Nat := m (b / 2) / 256 ^ (b % 2) % 256

/-- The other byte of the word. -/
def otherByte (b : Nat) : Nat := if b % 2 = 1 then b - 1 else b + 1

/-- The fields of a byte, when the bytes of each word are exchanged. -/
theorem wordByte_other (m : Nat → Nat) (b : Nat) {k : Nat} (hk : k < 4) :
    wordByte m (otherByte b) / 4 ^ (3 - k) % 4 = pairAt m (4 * b + k) := by
  have hword : (4 * b + k) / 8 = b / 2 := by omega
  unfold wordByte otherByte pairAt pair
  rw [hword, Nat.shiftRight_eq_div_pow]
  obtain hb | hb : b % 2 = 1 ∨ b % 2 = 0 := by omega
  · rw [if_pos hb, show (b - 1) / 2 = b / 2 by omega, show (b - 1) % 2 = 0 by omega,
      show (4 * b + k) % 8 = 4 + k by omega]
    interval_cases k <;> omega
  · rw [if_neg (by omega), show (b + 1) / 2 = b / 2 by omega, show (b + 1) % 2 = 1 by omega,
      show (4 * b + k) % 8 = k by omega]
    interval_cases k <;> omega

/-! ## Masks -/

/-- The two top bits. -/
theorem and_top_eq_zero {x k : Nat} (h : x < 2 ^ (k + 2)) : x &&& 3 <<< k = 0 ↔ x < 2 ^ k := by
  have htop : x >>> k < 4 := by
    rw [Nat.shiftRight_eq_div_pow, Nat.div_lt_iff_lt_mul (Nat.two_pow_pos k)]
    rwa [Nat.pow_add, Nat.mul_comm] at h
  constructor
  · intro h0
    have hshift : x >>> k &&& 3 = 0 := by
      have h1 := congrArg (· >>> k) h0
      simpa only [Nat.shiftRight_and_distrib, Nat.shiftLeft_shiftRight, Nat.zero_shiftRight]
        using h1
    have hmod : x >>> k &&& 3 = x >>> k % 4 := Nat.and_two_pow_sub_one_eq_mod (x >>> k) 2
    have hzero : x >>> k = 0 := by rwa [hmod, Nat.mod_eq_of_lt htop] at hshift
    rw [Nat.shiftRight_eq_div_pow] at hzero
    exact (Nat.div_eq_zero_iff_lt (Nat.two_pow_pos k)).mp hzero
  · intro hlt
    apply Nat.eq_of_testBit_eq
    intro j
    rw [Nat.testBit_and, Nat.testBit_shiftLeft, Nat.zero_testBit]
    by_cases hj : k ≤ j
    · rw [Nat.testBit_lt_two_pow (lt_of_lt_of_le hlt (Nat.pow_le_pow_right Nat.two_pos hj)),
        Bool.false_and]
    · simp [hj]

end VendorAmlogic.Lib
