import Mathlib.Tactic
import VendorAmlogic.Lib.Bytes

/-!
# The tables of AES

`aes_gen_tables` of `systemcontrol/HDCP/aes.cpp`: the powers of 3 and their logarithms, the S-boxes
and the tables of the rounds, which are made when the first key is set. The tables of a round are
those of the bytes behind the S-box, turned by a byte each.
-/

namespace VendorAmlogic.Hdcp.Aes

open VendorAmlogic.Lib

abbrev Word := BitVec 32

/-! ## Definitions -/

/-- `XTIME`, the low byte. -/
def xtime (x : Byte) : Byte := x <<< 1 ^^^ if x &&& 0x80 ≠ 0 then 0x1B else 0

/-- `pow`. -/
def pow : Nat → Byte
  | 0 => 1
  | i + 1 => pow i ^^^ xtime (pow i)

/-- The last entry below `n` of the loop that fills `log` which goes to `x`. -/
def logBelow (x : Byte) : Nat → Nat
  | 0 => 0
  | n + 1 => if pow n = x then n else logBelow x n

/-- `log`, which is not set for 0. -/
def log (x : Byte) : Nat := logBelow x 256

/-- `MUL`. -/
def mul (x y : Byte) : Byte := if x ≠ 0 ∧ y ≠ 0 then pow ((log x + log y) % 255) else 0

/-- `RCON`. -/
def rcon : Nat → Byte
  | 0 => 1
  | i + 1 => xtime (rcon i)

/-- `y = ((y << 1) | (y >> 7)) & 0xFF`. -/
def rotl1 (y : Byte) : Byte := y.rotateLeft 1

/-- The end of an entry of `FSb`: `x` and four turns of it. -/
def affine (x : Byte) : Byte :=
  x ^^^ rotl1 x ^^^ rotl1 (rotl1 x) ^^^ rotl1 (rotl1 (rotl1 x)) ^^^
    (rotl1 (rotl1 (rotl1 (rotl1 x))) ^^^ 0x63)

/-- `FSb`. -/
def fsb (i : Byte) : Byte := if i = 0 then 0x63 else affine (pow (255 - log i))

/-- `RSb`: the last entry that is stored there. -/
def rsb (x : Byte) : Byte :=
  (((List.range 256).map (BitVec.ofNat 8)).reverse.find? fun i => fsb i = x).getD 0

/-- `ROTL8`. -/
def rotl8 (w : Word) : Word := w.rotateLeft 8

/-- An entry of `FT0` from the entry `x` of `FSb`. -/
def ft0 (x : Byte) : Word :=
  (xtime x).setWidth 32 ^^^ x.setWidth 32 <<< 8 ^^^ x.setWidth 32 <<< 16 ^^^
    (xtime x ^^^ x).setWidth 32 <<< 24

/-- An entry of `RT0` from the entry `x` of `RSb`. -/
def rt0 (x : Byte) : Word :=
  (mul 0x0E x).setWidth 32 ^^^ (mul 0x09 x).setWidth 32 <<< 8 ^^^ (mul 0x0D x).setWidth 32 <<< 16 ^^^
    (mul 0x0B x).setWidth 32 <<< 24

/-- `FT0` to `FT3`. -/
def ft (j : Nat) (i : Byte) : Word := rotl8^[j] (ft0 (fsb i))

/-- `RT0` to `RT3`. -/
def rt (j : Nat) (i : Byte) : Word := rotl8^[j] (rt0 (rsb i))

theorem ft_eq (i : Byte) : ft 0 i = ft0 (fsb i) ∧ ft 1 i = rotl8 (ft0 (fsb i)) ∧
    ft 2 i = rotl8 (rotl8 (ft0 (fsb i))) ∧ ft 3 i = rotl8 (rotl8 (rotl8 (ft0 (fsb i)))) :=
  ⟨rfl, rfl, rfl, rfl⟩

theorem rt_eq (i : Byte) : rt 0 i = rt0 (rsb i) ∧ rt 1 i = rotl8 (rt0 (rsb i)) ∧
    rt 2 i = rotl8 (rotl8 (rt0 (rsb i))) ∧ rt 3 i = rotl8 (rotl8 (rotl8 (rt0 (rsb i)))) :=
  ⟨rfl, rfl, rfl, rfl⟩

/-- What is added twice is gone. -/
theorem xor_xor_self {n : Nat} (x y : BitVec n) : x ^^^ y ^^^ y = x := by
  rw [BitVec.xor_assoc, BitVec.xor_self, BitVec.xor_zero]

/-! ## Powers and logarithms -/

/-- A step of `pow`. -/
def times3 (x : Byte) : Byte := x ^^^ xtime x

theorem pow_eq (n : Nat) : pow n = times3^[n] 1 := by
  induction n with
  | zero => rfl
  | succ n ih => rw [Function.iterate_succ_apply', ← ih, pow, times3]

theorem pow_add (m n : Nat) : pow (m + n) = times3^[m] (pow n) := by
  rw [pow_eq, pow_eq, Function.iterate_add_apply]

/-- The powers that tell the order of 3. -/
theorem pow_dvd : pow 255 = 1 ∧ pow 85 ≠ 1 ∧ pow 51 ≠ 1 ∧ pow 15 ≠ 1 := by
  decide +kernel

/-- 255 is the order of 3: it is none of the largest numbers that divide 255. -/
theorem minimalPeriod_times3 : Function.minimalPeriod times3 1 = 255 := by
  obtain ⟨h255, h85, h51, h15⟩ := pow_dvd
  have hdvd : Function.minimalPeriod times3 1 ∣ 255 :=
    Function.IsPeriodicPt.minimalPeriod_dvd ((pow_eq 255).symm.trans h255)
  have hnot : ∀ m, pow m ≠ 1 → ¬ Function.minimalPeriod times3 1 ∣ m := fun m hm h =>
    hm ((pow_eq m).trans (Function.isPeriodicPt_iff_minimalPeriod_dvd.mpr h))
  have hmem : Function.minimalPeriod times3 1 ∈ Nat.divisors 255 :=
    Nat.mem_divisors.mpr ⟨hdvd, by decide⟩
  replace h85 := hnot 85 h85
  replace h51 := hnot 51 h51
  replace h15 := hnot 15 h15
  generalize Function.minimalPeriod times3 1 = m at hmem h85 h51 h15
  have hdivisors : Nat.divisors 255 = {1, 3, 5, 15, 17, 51, 85, 255} := by
    simp only [Nat.divisors_ofNat]
  rw [hdivisors] at hmem
  simp only [Finset.mem_insert, Finset.mem_singleton] at hmem
  rcases hmem with rfl | rfl | rfl | rfl | rfl | rfl | rfl | rfl
  · exact absurd (by decide) h85
  · exact absurd (by decide) h51
  · exact absurd (by decide) h85
  · exact absurd (by decide) h15
  · exact absurd (by decide) h85
  · exact absurd (by decide) h51
  · exact absurd (by decide) h85
  · rfl

theorem pow_mod (n : Nat) : pow (n % 255) = pow n := by
  rw [pow_eq, pow_eq, ← minimalPeriod_times3]
  exact Function.iterate_mod_minimalPeriod_eq

theorem pow_inj {m n : Nat} (hm : m < 255) (hn : n < 255) (h : pow m = pow n) : m = n := by
  rw [pow_eq, pow_eq] at h
  rw [← minimalPeriod_times3] at hm hn
  exact (Function.iterate_eq_iterate_iff_of_lt_minimalPeriod hm hn).mp h

theorem pow_ne_zero (n : Nat) : pow n ≠ 0 := by
  have hzero : ∀ m, times3^[m] 0 = 0 := fun m => Function.iterate_fixed rfl m
  intro h
  have hone : pow (255 - n % 255 + n % 255) = 1 := by
    rw [Nat.sub_add_cancel (Nat.mod_lt n (by decide)).le, ← pow_mod]
    rfl
  rw [pow_add, pow_mod, h, hzero] at hone
  exact absurd hone (by decide)

theorem logBelow_spec {x : Byte} {i n : Nat} (hi : i < n) (hx : pow i = x) :
    pow (logBelow x n) = x ∧ i ≤ logBelow x n ∧ logBelow x n < n := by
  induction n with
  | zero => exact absurd hi (Nat.not_lt_zero i)
  | succ n ih =>
    unfold logBelow
    split
    next h => exact ⟨h, by omega, by omega⟩
    next h =>
      have hne : i ≠ n := fun he => h (he ▸ hx)
      obtain ⟨h1, h2, h3⟩ := ih (by omega)
      exact ⟨h1, h2, by omega⟩

/-- Every byte but 0 is a power. -/
theorem exists_pow {x : Byte} (hx : x ≠ 0) : ∃ i < 255, pow i = x := by
  have hinj : Set.InjOn (fun n => (pow n).toNat) (Finset.range 255 : Finset Nat) := fun m hm n hn h =>
    pow_inj (Finset.mem_range.mp hm) (Finset.mem_range.mp hn) (BitVec.eq_of_toNat_eq h)
  have hsub : (Finset.range 255).image (fun n => (pow n).toNat) ⊆ Finset.Ico 1 256 := by
    intro y hy
    obtain ⟨n, -, rfl⟩ := Finset.mem_image.mp hy
    have hne : (pow n).toNat ≠ 0 := fun h => pow_ne_zero n (BitVec.eq_of_toNat_eq h)
    exact Finset.mem_Ico.mpr ⟨Nat.pos_of_ne_zero hne, (pow n).isLt⟩
  have himage := Finset.eq_of_subset_of_card_le hsub (by
    rw [Finset.card_image_of_injOn hinj, Finset.card_range, Nat.card_Ico])
  have hmem : x.toNat ∈ Finset.Ico 1 256 := by
    have hne : x.toNat ≠ 0 := fun h => hx (BitVec.eq_of_toNat_eq h)
    exact Finset.mem_Ico.mpr ⟨Nat.pos_of_ne_zero hne, x.isLt⟩
  rw [← himage] at hmem
  obtain ⟨i, hi, hpow⟩ := Finset.mem_image.mp hmem
  exact ⟨i, Finset.mem_range.mp hi, BitVec.eq_of_toNat_eq hpow⟩

theorem pow_log {x : Byte} (hx : x ≠ 0) : pow (log x) = x ∧ 1 ≤ log x ∧ log x ≤ 255 := by
  obtain ⟨i, hi, hpow⟩ := exists_pow hx
  obtain ⟨h1, h2, h3⟩ := logBelow_spec (n := 256) (hi.trans (by decide)) hpow
  refine ⟨h1, ?_, Nat.lt_succ_iff.mp h3⟩
  -- 1 is stored for 0 first, and for 255 after it
  rcases Nat.eq_zero_or_pos i with rfl | h0
  · have h255 : pow 255 = x := (pow_mod 255).symm.trans hpow
    have := (logBelow_spec (n := 256) (by decide) h255).2.1
    unfold log
    omega
  · unfold log
    omega

theorem log_pow {n : Nat} (h1 : 1 ≤ n) (hn : n ≤ 255) : log (pow n) = n := by
  obtain ⟨hpow, hlo, hhi⟩ := pow_log (pow_ne_zero n)
  have hmod : log (pow n) % 255 = n % 255 :=
    pow_inj (Nat.mod_lt _ (by decide)) (Nat.mod_lt _ (by decide)) (by rw [pow_mod, pow_mod, hpow])
  omega

/-- Products are steps of `pow` from a byte. -/
theorem mul_eq_times3 {c : Byte} (hc : c ≠ 0) (x : Byte) : mul c x = times3^[log c] x := by
  unfold mul
  by_cases hx : x = 0
  · rw [if_neg (by simp [hx]), hx, Function.iterate_fixed rfl]
  · rw [if_pos ⟨hc, hx⟩, pow_mod, pow_add, (pow_log hx).1]

/-! ## The S-boxes -/

/-- What undoes `affine`. -/
def unaffine (y : Byte) : Byte := y.rotateLeft 1 ^^^ y.rotateLeft 3 ^^^ y.rotateLeft 6 ^^^ 0x05

theorem unaffine_affine : ∀ x, unaffine (affine x) = x := by
  decide +kernel

/-- The byte that has a given entry of `FSb`. -/
def unfsb (y : Byte) : Byte := if unaffine y = 0 then 0 else pow (255 - log (unaffine y))

theorem unfsb_fsb (i : Byte) : unfsb (fsb i) = i := by
  unfold unfsb fsb
  by_cases hi : i = 0
  · rw [if_pos hi, hi]
    rfl
  · obtain ⟨hpow, hlo, hhi⟩ := pow_log hi
    rw [if_neg hi, unaffine_affine, if_neg (pow_ne_zero _)]
    rcases Nat.lt_or_ge (log i) 255 with h | h
    · rw [log_pow (by omega) (by omega), Nat.sub_sub_self (by omega), hpow]
    · have h255 : log i = 255 := by omega
      have hone : i = 1 := by rw [← hpow, h255, pow_dvd.1]
      have hzero : pow (255 - 255) = 1 := rfl
      rw [h255, hzero, ← hone, h255, hzero, hone]

theorem rsb_fsb (i : Byte) : rsb (fsb i) = i := by
  have hmem : i ∈ ((List.range 256).map (BitVec.ofNat 8)).reverse := by
    rw [List.mem_reverse, List.mem_map]
    exact ⟨i.toNat, List.mem_range.mpr i.isLt, BitVec.ofNat_toNat 8 i⟩
  unfold rsb
  cases hfind : ((List.range 256).map (BitVec.ofNat 8)).reverse.find? fun j => fsb j = fsb i with
  | none =>
    have hnot := List.find?_eq_none.mp hfind i hmem
    simp at hnot
  | some j =>
    have hj : fsb j = fsb i := by simpa using List.find?_some hfind
    rw [Option.getD_some, ← unfsb_fsb j, hj, unfsb_fsb]

/-! ## Sums -/

/-- A function of bytes that goes with sums. -/
def Additive {n : Nat} (f : Byte → BitVec n) : Prop := ∀ x y, f (x ^^^ y) = f x ^^^ f y

theorem additive_xtime : Additive xtime := by
  intro x y
  have hbit : ∀ z : Byte, (z &&& 0x80 ≠ 0) ↔ z.getLsbD 7 = true := by
    intro z
    rw [show (0x80 : Byte) = BitVec.twoPow 8 7 from rfl, BitVec.and_twoPow]
    cases z.getLsbD 7 <;> decide
  have hred : (if (x ^^^ y).getLsbD 7 = true then 0x1B else 0 : Byte) =
      (if x.getLsbD 7 = true then 0x1B else 0) ^^^ if y.getLsbD 7 = true then 0x1B else 0 := by
    rw [BitVec.getLsbD_xor]
    cases x.getLsbD 7 <;> cases y.getLsbD 7 <;> rfl
  simp only [xtime, hbit, hred, BitVec.shiftLeft_xor_distrib]
  ac_rfl

theorem additive_times3 : Additive times3 := by
  intro x y
  simp only [times3, additive_xtime x y]
  ac_rfl

theorem additive_mul {c : Byte} (hc : c ≠ 0) : Additive (mul c) := by
  have hiter : ∀ n, Additive (times3^[n]) := by
    intro n
    induction n with
    | zero => exact fun _ _ => rfl
    | succ n ih =>
      intro x y
      rw [Function.iterate_succ_apply, additive_times3, ih, Function.iterate_succ_apply,
        Function.iterate_succ_apply]
  intro x y
  rw [mul_eq_times3 hc, mul_eq_times3 hc, mul_eq_times3 hc, hiter]

theorem additive_zero {n : Nat} {f : Byte → BitVec n} (h : Additive f) : f 0 = 0 := by
  have h0 := h 0 0
  rw [show (0 : Byte) ^^^ 0 = 0 from rfl] at h0
  rw [h0, BitVec.xor_self]
  rfl

/-- A byte is the sum of its bits. -/
def bitOf (x : Byte) (i : Nat) : Byte := if x.getLsbD i = true then 1 <<< i else 0

theorem sum_bitOf : ∀ x : Byte, bitOf x 0 ^^^ bitOf x 1 ^^^ bitOf x 2 ^^^ bitOf x 3 ^^^ bitOf x 4 ^^^
    bitOf x 5 ^^^ bitOf x 6 ^^^ bitOf x 7 = x := by
  decide +kernel

/-- Two functions that go with sums are the same when they are on the bits. -/
theorem Additive.ext {n : Nat} {f g : Byte → BitVec n} (hf : Additive f) (hg : Additive g)
    (h : ∀ i < 8, f (1 <<< i) = g (1 <<< i)) (x : Byte) : f x = g x := by
  have hbit : ∀ i < 8, f (bitOf x i) = g (bitOf x i) := by
    intro i hi
    unfold bitOf
    split
    · exact h i hi
    · rw [additive_zero hf, additive_zero hg]
  rw [← sum_bitOf x]
  simp only [hf _ _, hg _ _, hbit 0 (by decide), hbit 1 (by decide), hbit 2 (by decide),
    hbit 3 (by decide), hbit 4 (by decide), hbit 5 (by decide), hbit 6 (by decide),
    hbit 7 (by decide)]

/-! ## Columns -/

/-- `(Y >> 8 * j) & 0xFF`. -/
def byteAt (w : Word) (j : Nat) : Byte := (w >>> (8 * j)).setWidth 8

/-- The entries of four tables for the bytes of a word, each table turned by a byte from the one
before it. -/
def column (f : Byte → Word) (w : Word) : Word :=
  f (byteAt w 0) ^^^ rotl8 (f (byteAt w 1)) ^^^ rotl8 (rotl8 (f (byteAt w 2))) ^^^
    rotl8 (rotl8 (rotl8 (f (byteAt w 3))))

theorem rotl8_xor (v w : Word) : rotl8 (v ^^^ w) = rotl8 v ^^^ rotl8 w := by
  ext i hi
  simp only [rotl8, BitVec.getElem_rotateLeft, BitVec.getElem_xor]
  split <;> rfl

theorem byteAt_xor (v w : Word) (j : Nat) : byteAt (v ^^^ w) j = byteAt v j ^^^ byteAt w j := by
  rw [byteAt, BitVec.ushiftRight_xor_distrib, BitVec.setWidth_xor, byteAt, byteAt]

theorem byteAt_rotl8 (w : Word) :
    byteAt (rotl8 w) 0 = byteAt w 3 ∧ byteAt (rotl8 w) 1 = byteAt w 0 ∧
      byteAt (rotl8 w) 2 = byteAt w 1 ∧ byteAt (rotl8 w) 3 = byteAt w 2 := by
  refine ⟨?_, ?_, ?_, ?_⟩ <;>
  · ext i hi
    simp [byteAt, rotl8, BitVec.getLsbD_rotateLeft]
    try grind

theorem rotl8_four (w : Word) : rotl8 (rotl8 (rotl8 (rotl8 w))) = w := by
  ext i hi
  simp only [rotl8, BitVec.getElem_rotateLeft]
  grind

/-- A word is the sum of its bytes. -/
theorem column_setWidth (w : Word) : column (fun x => x.setWidth 32) w = w := by
  ext i hi
  simp [column, byteAt, rotl8, BitVec.getElem_rotateLeft]
  grind

section
variable {f g : Byte → Word}

theorem column_xor (hf : Additive f) (v w : Word) : column f (v ^^^ w) = column f v ^^^ column f w := by
  simp only [column, byteAt_xor, hf _ _, rotl8_xor]
  ac_rfl

theorem column_rotl8 (w : Word) : column f (rotl8 w) = rotl8 (column f w) := by
  obtain ⟨h0, h1, h2, h3⟩ := byteAt_rotl8 w
  simp only [column, h0, h1, h2, h3, rotl8_xor, rotl8_four]
  ac_rfl

/-- Columns of columns. -/
theorem column_column (hg : Additive g) (w : Word) :
    column g (column f w) = column (fun x => column g (f x)) w := by
  simp only [column.eq_1 f w, column_xor hg, column_rotl8]
  rfl

end

theorem Additive.add {n : Nat} {f g : Byte → BitVec n} (hf : Additive f) (hg : Additive g) :
    Additive fun x => f x ^^^ g x := by
  intro x y
  dsimp only
  rw [hf x y, hg x y]
  ac_rfl

theorem Additive.setWidth {f : Byte → Byte} (hf : Additive f) (m : Nat) :
    Additive fun x => (f x).setWidth m := by
  intro x y
  dsimp only
  rw [hf x y, BitVec.setWidth_xor]

theorem Additive.shiftLeft {n : Nat} {f : Byte → BitVec n} (hf : Additive f) (k : Nat) :
    Additive fun x => f x <<< k := by
  intro x y
  dsimp only
  rw [hf x y, BitVec.shiftLeft_xor_distrib]

theorem additive_id : Additive fun x : Byte => x := fun _ _ => rfl

theorem additive_ft0 : Additive ft0 :=
  (((additive_xtime.setWidth 32).add ((additive_id.setWidth 32).shiftLeft 8)).add
    ((additive_id.setWidth 32).shiftLeft 16)).add
      (((additive_xtime.add additive_id).setWidth 32).shiftLeft 24)

theorem additive_rt0 : Additive rt0 :=
  have h : ∀ {c : Byte}, c ≠ 0 → Additive fun x => (mul c x).setWidth 32 := fun hc =>
    (additive_mul hc).setWidth 32
  (((h (by decide)).add ((h (by decide)).shiftLeft 8)).add ((h (by decide)).shiftLeft 16)).add
    ((h (by decide)).shiftLeft 24)

/-- The columns of the last table undo those of the first one for one byte. -/
theorem column_rt0_ft0 (x : Byte) : column rt0 (ft0 x) = x.setWidth 32 := by
  have hadd : Additive fun x => column rt0 (ft0 x) := by
    intro x y
    dsimp only
    rw [additive_ft0, column_xor additive_rt0]
  exact hadd.ext (additive_id.setWidth 32) (by decide +kernel) x

/-- **The inverse mixing**: the tables of the decryption undo those of the encryption. -/
theorem column_rt0_column_ft0 (w : Word) : column rt0 (column ft0 w) = w := by
  rw [column_column additive_rt0]
  simp only [column_rt0_ft0]
  exact column_setWidth w

end VendorAmlogic.Hdcp.Aes
