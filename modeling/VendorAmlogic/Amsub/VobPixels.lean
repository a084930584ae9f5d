import Mathlib.Data.List.GetD
import VendorAmlogic.Amsub.VobControl
import VendorAmlogic.Lib.BitFields

/-!
# The pixels of a DVD subtitle field

`DecodeRL`, `GetWordFromPixBuffer` and `spu_fill_pixel` of
`libsub_vob/amsub_vob_dec.c`. The run length code is read in nibbles; a run that
is longer than its row counts for the next one, and starts no new row of words.
-/

namespace VendorAmlogic.Amsub.Vob

open VendorAmlogic.Lib

/-! ## Model -/

/-- `GetWordFromPixBuffer`: four bytes of `amsub_data` are read. -/
def getWord (data : Mem) (bitPos pixelIn : Nat) : Option Nat :=
  if pixelIn + 3 < vobSubSize then
    let w := (data pixelIn).toNat <<< 8 ||| (data (pixelIn + 1)).toNat
    let w' := (data (pixelIn + 2)).toNat <<< 8 ||| (data (pixelIn + 3)).toNat
    some (if bitPos = 0 then w else (w <<< bitPos ||| w' >>> (16 - bitPos)) % 2 ^ 16)
  else none

/-- `DecodeRL`: bits, `pixelnum` and `pixeldata`. -/
def decodeRL (rl : Nat) : Nat × Nat × Nat :=
  let bits :=
    if rl &&& 0xc000 ≠ 0 then 4
    else if rl &&& 0x3000 ≠ 0 then 8
    else if rl &&& 0x0c00 ≠ 0 then 12
    else 16
  let shift := 16 - bits
  (bits, rl >>> (shift + 2), rl >>> shift &&& 3)

/-- The variables of `spu_fill_pixel`; `out` is `pixelOut` in words. -/
structure Fill where
  pixelIn : Nat
  bitPos : Nat
  decoded : Nat
  out : Nat → Nat
  wr : Nat
  wrOffset : Nat

/-- The words of `pixelOut`. -/
def fieldWords : Nat := vobSubSize / 2 / 2

namespace Fill

/-- One pixel; nothing if its word is behind `pixelOut`. -/
def put (v : Nat) (s : Fill) : Option Fill :=
  if s.wr < fieldWords then
    let off := s.wrOffset - 2
    let out := Function.update s.out s.wr (s.out s.wr ||| v <<< off)
    if off = 0 then some { s with out := out, wrOffset := 16, wr := s.wr + 1 }
    else some { s with out := out, wrOffset := off }
  else none

def puts (v : Nat) : Nat → Fill → Option Fill
  | 0, s => some s
  | n + 1, s => (s.put v).bind (puts v n)

/-- So many bits are read. -/
def advance (bits : Nat) (s : Fill) : Fill :=
  if 16 ≤ s.bitPos + bits then
    { s with bitPos := s.bitPos + bits - 16, pixelIn := s.pixelIn + 2 }
  else { s with bitPos := s.bitPos + bits }

theorem advance_decoded (bits : Nat) (s : Fill) : (s.advance bits).decoded = s.decoded := by
  unfold advance
  split <;> rfl

/-- A code of a row of `w` pixels. -/
def code (data : Mem) (w : Nat) (pixel : Nat → Nat) (s : Fill) : Option Fill :=
  (getWord data s.bitPos s.pixelIn).bind fun rl =>
    let r := decodeRL rl
    let num := if r.2.1 = 0 then w - s.decoded % w else r.2.1
    (puts (pixel r.2.2) num (s.advance r.1)).map fun s => { s with decoded := s.decoded + num }

theorem put_decoded {v : Nat} {s s' : Fill} (h : s.put v = some s') : s'.decoded = s.decoded := by
  unfold put at h
  dsimp only at h
  split at h
  · split at h <;> cases h <;> rfl
  · cases h

theorem puts_decoded {v n : Nat} {s s' : Fill} (h : puts v n s = some s') :
    s'.decoded = s.decoded := by
  induction n generalizing s with
  | zero =>
    cases h
    rfl
  | succ n ih =>
    obtain ⟨s1, hput, hputs⟩ := Option.bind_eq_some_iff.mp h
    rw [ih hputs, put_decoded hput]

theorem code_decoded {data : Mem} {w : Nat} {pixel : Nat → Nat} {s s' : Fill}
    (hlt : s.decoded < w) (h : s.code data w pixel = some s') : s.decoded < s'.decoded := by
  obtain ⟨rl, -, h⟩ := Option.bind_eq_some_iff.mp h
  obtain ⟨s1, hputs, rfl⟩ := Option.map_eq_some_iff.mp h
  have hmod := Nat.mod_lt s.decoded (by omega : 0 < w)
  have hd := (puts_decoded hputs).trans (advance_decoded ..)
  dsimp only
  split <;> omega

/-- A row. -/
def row (data : Mem) (w : Nat) (pixel : Nat → Nat) (s : Fill) : Option Fill :=
  if _h : s.decoded < w then
    match _h' : s.code data w pixel with
    | none => none
    | some s => s.row data w pixel
  else some s
termination_by w - s.decoded
decreasing_by
  have := code_decoded _h _h'
  omega

/-- Rule 6. -/
def alignBits (s : Fill) : Fill :=
  if s.bitPos = 4 then { s with bitPos := 8 }
  else if s.bitPos = 12 then { s with bitPos := 0, pixelIn := s.pixelIn + 2 }
  else s

def alignWord (s : Fill) : Fill :=
  if s.wrOffset ≠ 16 then { s with wrOffset := 16, wr := s.wr + 1 } else s

/-- The end of a row; the pixels too many are those of the next one. -/
def endRow (w : Nat) (s : Fill) : Fill :=
  let s := s.alignBits.alignWord
  { s with decoded := s.decoded - w }

def rows (data : Mem) (w : Nat) (pixel : Nat → Nat) : Nat → Fill → Option Fill
  | 0, s => some s
  | n + 1, s => (s.row data w pixel).bind fun s => rows data w pixel n (s.endRow w)

end Fill

/-- How many of the low nibbles, up to the first that is zero: `change_data`. -/
def changeData (alpha : Nat) : Nat :=
  if _h : alpha % 16 = 0 then 0 else changeData (alpha / 16) + 1
termination_by alpha
decreasing_by omega

/-- `PixelDatas`. -/
def pixelDatas (change : Nat) : List Nat := ([0, 1, 2, 3].set 0 change).set change 0

def pixelOf (change v : Nat) : Nat := if change ≠ 0 then (pixelDatas change).getD v 0 else v

/-- `spu_fill_pixel`, from `addr` on; nothing if it reads or writes elsewhere than in
`amsub_data`, `PixelDatas` and `pixelOut`. -/
def spuFillPixel (data : Mem) (addr : Nat) (s : Spu) : Option (Nat → Nat) :=
  let change := changeData s.alpha
  if change < 4 then
    (Fill.rows data s.width (pixelOf change) (s.height / 2)
      ⟨addr, 0, 0, fun _ => 0, 0, 16⟩).map Fill.out
  else none

/-! ## The code -/

/-- A run, of the rest of the line if `count` is zero, in so many nibbles. -/
structure Code where
  size : Nat
  count : Nat
  color : Fin 4
  proper : (size = 1 ∧ 1 ≤ count ∧ count < 4) ∨ (size = 2 ∧ 4 ≤ count ∧ count < 16) ∨
    (size = 3 ∧ 16 ≤ count ∧ count < 64) ∨ (size = 4 ∧ count < 256)

namespace Code

def value (c : Code) : Nat := 4 * c.count + c.color

/-- The code is at nibble `q`. -/
def At (data : Mem) (q : Nat) (c : Code) : Prop := number data q c.size = c.value

/-- The pixels it makes in a row of `w` that has `d`. -/
def pixels (w d : Nat) (c : Code) : Nat := if c.count = 0 then w - d else c.count

theorem size_le (c : Code) : c.size ≤ 4 := by
  have := c.proper
  omega

end Code

/-- A row of codes, from nibble `q` on: the last one, and no other, fills it. -/
def Line (data : Mem) (w : Nat) : Nat → Nat → List Code → Prop
  | _, d, [] => w ≤ d
  | q, d, c :: cs => d < w ∧ c.At data q ∧ Line data w (q + c.size) (d + c.pixels w d) cs

instance decidableLine (data : Mem) (w : Nat) : ∀ q d cs, Decidable (Line data w q d cs)
  | _, d, [] => inferInstanceAs (Decidable (w ≤ d))
  | q, d, c :: cs =>
    have : Decidable (Line data w (q + c.size) (d + c.pixels w d) cs) := decidableLine data w _ _ cs
    inferInstanceAs (Decidable (d < w ∧ number data q c.size = c.value ∧ _))

def lineSize (cs : List Code) : Nat := (cs.map Code.size).sum

/-- The pixels of a row that has `d` already. -/
def linePixels (w : Nat) : Nat → List Code → List (Fin 4)
  | _, [] => []
  | d, c :: cs => List.replicate (c.pixels w d) c.color ++ linePixels w (d + c.pixels w d) cs

/-- Rows start at a byte. -/
def aligned (q : Nat) : Nat := q + q % 2

def Lines (data : Mem) (w : Nat) : Nat → Nat → List (List Code) → Prop
  | _, _, [] => True
  | q, d, cs :: rows => Line data w q d cs ∧
    Lines data w (aligned (q + lineSize cs)) (d + (linePixels w d cs).length - w) rows

instance decidableLines (data : Mem) (w : Nat) : ∀ q d rows, Decidable (Lines data w q d rows)
  | _, _, [] => isTrue trivial
  | q, d, cs :: rows =>
    have : Decidable (Lines data w (aligned (q + lineSize cs)) (d + (linePixels w d cs).length - w) rows) :=
      decidableLines data w _ _ rows
    inferInstanceAs (Decidable (Line data w q d cs ∧ _))

/-- The words that the rows fill. -/
def lineWords (w : Nat) : Nat → List (List Code) → Nat
  | _, [] => 0
  | d, cs :: rows => ((linePixels w d cs).length + 7) / 8 +
    lineWords w (d + (linePixels w d cs).length - w) rows

/-- The pixels in them. -/
def padded (l : List Nat) : List Nat := l ++ List.replicate ((8 - l.length % 8) % 8) 0

def packed (w : Nat) (pixel : Nat → Nat) : Nat → List (List Code) → List Nat
  | _, [] => []
  | d, cs :: rows => padded ((linePixels w d cs).map fun c : Fin 4 => pixel c) ++
    packed w pixel (d + (linePixels w d cs).length - w) rows

/-! ## Reading a code -/

theorem bytes_or (a b : Byte) : a.toNat <<< 8 ||| b.toNat = a.toNat * 256 + b.toNat := by
  rw [← Nat.shiftLeft_add_eq_or_of_lt b.isLt, Nat.shiftLeft_eq]

theorem words_or {w w' b : Nat} (hw' : w' < 2 ^ 16) (hb : b ≤ 16) :
    w <<< b ||| w' >>> (16 - b) = w * 2 ^ b + w' / 2 ^ (16 - b) := by
  have hlt : w' >>> (16 - b) < 2 ^ b := by
    rw [Nat.shiftRight_eq_div_pow, Nat.div_lt_iff_lt_mul (Nat.two_pow_pos _), ← Nat.pow_add,
      show b + (16 - b) = 16 by omega]
    exact hw'
  rw [← Nat.shiftLeft_add_eq_or_of_lt hlt, Nat.shiftLeft_eq, Nat.shiftRight_eq_div_pow]

/-- The next four nibbles. -/
theorem getWord_eq (data : Mem) {b p : Nat} (hb : b % 4 = 0) (hlt : b < 16)
    (hin : p + 3 < vobSubSize) : getWord data b p = some (number data (2 * p + b / 4) 4) := by
  have h0 := (data p).isLt
  have h1 := (data (p + 1)).isLt
  have h2 := (data (p + 2)).isLt
  have h3 := (data (p + 3)).isLt
  unfold getWord
  rw [if_pos hin]
  dsimp only
  rw [bytes_or, bytes_or, words_or (by omega) (by omega)]
  congr 1
  obtain rfl | rfl | rfl | rfl : b = 0 ∨ b = 4 ∨ b = 8 ∨ b = 12 := by omega
  · rw [if_pos rfl]
    exact (number_two_bytes data p).symm
  · rw [if_neg (by decide)]
    have h := number_odd data p
    rw [show 2 * p + 4 / 4 = 2 * p + 1 from rfl, h]
    omega
  · rw [if_neg (by decide)]
    have h : number data (2 * (p + 1)) 4 = (data (p + 1)).toNat * 256 + (data (p + 2)).toNat :=
      number_two_bytes data (p + 1)
    rw [show 2 * p + 8 / 4 = 2 * (p + 1) by omega, h]
    omega
  · rw [if_neg (by decide)]
    have h : number data (2 * (p + 1) + 1) 4 = (data (p + 1)).toNat % 16 * 4096 +
        (data (p + 2)).toNat * 16 + (data (p + 3)).toNat / 16 := number_odd data (p + 1)
    rw [show 2 * p + 12 / 4 = 2 * (p + 1) + 1 by omega, h]
    omega

/-- A word that starts with a code. -/
theorem decodeRL_code {rl : Nat} (hrl : rl < 2 ^ 16) (c : Code)
    (hc : rl / 16 ^ (4 - c.size) = c.value) :
    decodeRL rl = (4 * c.size, c.count, (c.color : Nat)) := by
  have hcolor := c.color.isLt
  have hand : ∀ x : Nat, x &&& 3 = x % 4 := fun x => Nat.and_two_pow_sub_one_eq_mod x 2
  have hbits : (if rl &&& 0xc000 ≠ 0 then 4 else if rl &&& 0x3000 ≠ 0 then 8
      else if rl &&& 0x0c00 ≠ 0 then 12 else 16) = 4 * c.size ∧
      rl >>> (16 - 4 * c.size + 2) = c.count ∧ rl >>> (16 - 4 * c.size) % 4 = c.color := by
    have h14 : rl &&& 0xc000 = 0 ↔ rl < 2 ^ 14 := and_top_eq_zero hrl
    have h12 : rl < 2 ^ 14 → (rl &&& 0x3000 = 0 ↔ rl < 2 ^ 12) := fun h => and_top_eq_zero h
    have h10 : rl < 2 ^ 12 → (rl &&& 0x0c00 = 0 ↔ rl < 2 ^ 10) := fun h => and_top_eq_zero h
    unfold Code.value at hc
    simp only [Nat.shiftRight_eq_div_pow]
    obtain ⟨hs, hcount⟩ | ⟨hs, hcount⟩ | ⟨hs, hcount⟩ | ⟨hs, hcount⟩ := c.proper
    · rw [hs] at hc ⊢
      exact ⟨if_pos (by omega), by omega, by omega⟩
    · rw [hs] at hc ⊢
      exact ⟨(if_neg (by omega)).trans (if_pos (by omega)), by omega, by omega⟩
    · rw [hs] at hc ⊢
      refine ⟨(if_neg (by omega)).trans ((if_neg (by omega)).trans (if_pos (by omega))), ?_, ?_⟩ <;>
        omega
    · rw [hs] at hc ⊢
      refine ⟨(if_neg (by omega)).trans ((if_neg (by omega)).trans (if_neg (by omega))), ?_, ?_⟩ <;>
        omega
  unfold decodeRL
  dsimp only
  rw [hbits.1, hand, hbits.2.1, hbits.2.2]

/-- Any word starts with a code. -/
theorem exists_code {rl : Nat} (hrl : rl < 2 ^ 16) :
    ∃ c : Code, rl / 16 ^ (4 - c.size) = c.value := by
  by_cases h1 : 2 ^ 14 ≤ rl
  · exact ⟨⟨1, rl / 2 ^ 14, ⟨rl / 2 ^ 12 % 4, by omega⟩, by omega⟩, by
      dsimp only [Code.value]; omega⟩
  by_cases h2 : 2 ^ 12 ≤ rl
  · exact ⟨⟨2, rl / 2 ^ 10, ⟨rl / 2 ^ 8 % 4, by omega⟩, by omega⟩, by
      dsimp only [Code.value]; omega⟩
  by_cases h3 : 2 ^ 10 ≤ rl
  · exact ⟨⟨3, rl / 2 ^ 6, ⟨rl / 2 ^ 4 % 4, by omega⟩, by omega⟩, by
      dsimp only [Code.value]; omega⟩
  · exact ⟨⟨4, rl / 2 ^ 2, ⟨rl % 4, by omega⟩, by omega⟩, by
      dsimp only [Code.value]; omega⟩

/-- The first nibbles of a word. -/
theorem number_code (data : Mem) (q : Nat) (c : Code) :
    number data q 4 / 16 ^ (4 - c.size) = number data q c.size := by
  have hdiv := number_div data q c.size (4 - c.size)
  rwa [Nat.add_sub_of_le c.size_le] at hdiv

theorem exists_at (data : Mem) (q : Nat) : ∃ c : Code, c.At data q := by
  obtain ⟨c, hc⟩ := exists_code (number_lt data q 4)
  exact ⟨c, (number_code data q c).symm.trans hc⟩

/-! ## Writing pixels -/

/-- Nibble `q` is next, the row has `d` pixels, and these have been written. -/
structure Fill.Holds (s : Fill) (q d : Nat) (P : List Nat) : Prop where
  bit : s.bitPos % 4 = 0
  bit_lt : s.bitPos < 16
  pos : 2 * s.pixelIn + s.bitPos / 4 = q
  decoded : s.decoded = d
  off : s.wrOffset % 2 = 0
  off_pos : 0 < s.wrOffset
  off_le : s.wrOffset ≤ 16
  length : P.length = 8 * s.wr + (16 - s.wrOffset) / 2
  fits : P.length ≤ 8 * fieldWords
  out : ∀ i, pairAt s.out i = P.getD i 0

/-- These pixels are written, if there is room for them. -/
def Fills (o : Option Fill) (q d : Nat) (P : List Nat) : Prop :=
  if P.length ≤ 8 * fieldWords then ∃ s, o = some s ∧ s.Holds q d P else o = none

section
variable {s : Fill} {o : Option Fill} {f : Fill → Option Fill} {q q' d d' v w n : Nat}
  {P R : List Nat} {data : Mem} {pixel : Nat → Nat} {c : Code} {cs : List Code}

theorem Fills.bind (h : Fills o q d P)
    (hf : ∀ s : Fill, s.Holds q d P → Fills (f s) q' d' (P ++ R)) :
    Fills (o.bind f) q' d' (P ++ R) := by
  unfold Fills at h
  split at h
  · obtain ⟨s, rfl, hs⟩ := h
    exact hf s hs
  · rename_i hlong
    unfold Fills
    rw [if_neg (by rw [List.length_append]; omega), h]
    rfl

theorem Fill.Holds.fills (h : s.Holds q d P) : Fills (some s) q d P := by
  unfold Fills
  rw [if_pos h.fits]
  exact ⟨s, rfl, h⟩

theorem Fills.map {g : Fill → Fill} (h : Fills o q d P) (hg : ∀ s : Fill, s.Holds q d P →
    (g s).Holds q d' P) : Fills (o.map g) q d' P := by
  unfold Fills at h ⊢
  split at h
  · obtain ⟨s, rfl, hs⟩ := h
    rw [if_pos ‹_›]
    exact ⟨g s, rfl, hg s hs⟩
  · rw [if_neg ‹_›, h]
    rfl

theorem getD_concat (P : List Nat) (v i : Nat) :
    (P ++ [v]).getD i 0 = if i = P.length then v else P.getD i 0 := by
  by_cases hlt : i < P.length
  · rw [List.getD_append _ _ _ _ hlt, if_neg (by omega)]
  · rw [List.getD_append_right _ _ _ _ (by omega), List.getD_eq_default P _ (by omega)]
    by_cases hi : i = P.length
    · rw [if_pos hi, hi, Nat.sub_self]
      rfl
    · rw [if_neg hi, List.getD_eq_default _ _ (by rw [List.length_singleton]; omega)]

/-- One more pixel. -/
theorem Fill.Holds.put (h : s.Holds q d P) (hv : v < 4) : Fills (s.put v) q d (P ++ [v]) := by
  obtain ⟨hbit, hbit_lt, hpos, hdec, hoff, hoff_pos, hoff_le, hlen, hfits, hout⟩ := h
  unfold Fills Fill.put
  rw [List.length_append, List.length_singleton]
  by_cases hroom : s.wr < fieldWords
  · rw [if_pos (by omega), if_pos hroom]
    have hout' : ∀ i, pairAt (Function.update s.out s.wr (s.out s.wr ||| v <<< (s.wrOffset - 2))) i
        = (P ++ [v]).getD i 0 := by
      intro i
      have hput := pairAt_putPair s.out P.length hv i
      rw [putPair, show P.length / 8 = s.wr by omega,
        show 14 - 2 * (P.length % 8) = s.wrOffset - 2 by omega] at hput
      rw [hput, hout, hout, getD_concat, List.getD_eq_default _ _ (Nat.le_refl _), Nat.zero_or]
    dsimp only
    split
    · refine ⟨_, rfl, hbit, hbit_lt, hpos, hdec, ?_, ?_, ?_, ?_, ?_, hout'⟩ <;>
        simp only [List.length_append, List.length_singleton] <;> omega
    · refine ⟨_, rfl, hbit, hbit_lt, hpos, hdec, ?_, ?_, ?_, ?_, ?_, hout'⟩ <;>
        simp only [List.length_append, List.length_singleton] <;> omega
  · rw [if_neg (by omega), if_neg hroom]

theorem Fill.Holds.puts (h : s.Holds q d P) (hv : v < 4) :
    Fills (Fill.puts v n s) q d (P ++ List.replicate n v) := by
  induction n generalizing s P with
  | zero =>
    rw [List.replicate_zero, List.append_nil]
    exact h.fills
  | succ n ih =>
    rw [List.replicate_succ, List.append_cons]
    exact (h.put hv).bind fun s hs => ih hs

theorem Fill.Holds.advance (h : s.Holds q d P) (hn : n ≤ 4) :
    (s.advance (4 * n)).Holds (q + n) d P := by
  obtain ⟨hbit, hbit_lt, hpos, hdec, hoff, hoff_pos, hoff_le, hlen, hfits, hout⟩ := h
  unfold Fill.advance
  split
  · refine ⟨?_, ?_, ?_, hdec, hoff, hoff_pos, hoff_le, hlen, hfits, hout⟩ <;> dsimp only <;> omega
  · refine ⟨?_, ?_, ?_, hdec, hoff, hoff_pos, hoff_le, hlen, hfits, hout⟩ <;> dsimp only <;> omega

/-! ## Rows -/

/-- **A code** makes its pixels. -/
theorem Fill.Holds.code (h : s.Holds q d P) (hd : d < w) (hc : c.At data q)
    (hq : q / 2 + 3 < vobSubSize) (hpixel : pixel c.color < 4) :
    Fills (s.code data w pixel) (q + c.size) (d + c.pixels w d)
      (P ++ List.replicate (c.pixels w d) (pixel c.color)) := by
  have hpos := h.pos
  have hword : getWord data s.bitPos s.pixelIn = some (number data q 4) := by
    rw [getWord_eq data h.bit h.bit_lt (by omega), hpos]
  have hrl := decodeRL_code (number_lt data q 4) c ((number_code data q c).trans hc)
  have hnum : (if c.count = 0 then w - s.decoded % w else c.count) = c.pixels w d := by
    rw [h.decoded, Nat.mod_eq_of_lt hd]
    rfl
  unfold Fill.code
  rw [hword, Option.bind_some, hrl]
  dsimp only
  rw [hnum]
  have hputs : Fills (Fill.puts (pixel c.color) (c.pixels w d) (s.advance (4 * c.size)))
      (q + c.size) d (P ++ List.replicate (c.pixels w d) (pixel c.color)) :=
    (h.advance c.size_le).puts hpixel
  refine hputs.map fun s' hs' => ?_
  obtain ⟨hbit, hbit_lt, hpos, hdec, hoff, hoff_pos, hoff_le, hlen, hfits, hout⟩ := hs'
  exact ⟨hbit, hbit_lt, hpos, congrArg (· + _) hdec, hoff, hoff_pos, hoff_le, hlen, hfits, hout⟩

theorem row_eq (s : Fill) : s.row data w pixel =
    if s.decoded < w then (s.code data w pixel).bind fun s => s.row data w pixel else some s := by
  rw [Fill.row]
  split
  · split <;> rename_i hcode <;> rw [hcode] <;> rfl
  · rfl

theorem Fill.Holds.row (h : s.Holds q d P) (hline : Line data w q d cs)
    (hq : (q + lineSize cs) / 2 + 3 < vobSubSize) (hpixel : ∀ c : Fin 4, pixel c < 4) :
    Fills (s.row data w pixel) (q + lineSize cs) (d + (linePixels w d cs).length)
      (P ++ (linePixels w d cs).map fun c : Fin 4 => pixel c) := by
  induction cs generalizing s q d P with
  | nil =>
    have hge : ¬ s.decoded < w := by
      rw [h.decoded]
      exact not_lt.mpr hline
    rw [row_eq, if_neg hge]
    exact (List.append_nil P).symm ▸ h.fills
  | cons c cs ih =>
    obtain ⟨hd, hc, hrest⟩ := hline
    have hsize : lineSize (c :: cs) = c.size + lineSize cs := List.sum_cons
    have hpos := c.proper
    rw [hsize] at hq
    rw [row_eq, if_pos (by rw [h.decoded]; exact hd), hsize, ← Nat.add_assoc, linePixels,
      List.length_append, List.length_replicate, ← Nat.add_assoc, List.map_append,
      List.map_replicate, ← List.append_assoc]
    exact (h.code hd hc (by omega) (hpixel c.color)).bind fun s hs =>
      ih hs hrest (by omega)

theorem Fill.Holds.alignBits (h : s.Holds q d P) : s.alignBits.Holds (aligned q) d P := by
  obtain ⟨hbit, hbit_lt, hpos, hdec, hoff, hoff_pos, hoff_le, hlen, hfits, hout⟩ := h
  unfold Fill.alignBits aligned
  split
  · refine ⟨?_, ?_, ?_, hdec, hoff, hoff_pos, hoff_le, hlen, hfits, hout⟩ <;> dsimp only <;> omega
  · split
    · refine ⟨?_, ?_, ?_, hdec, hoff, hoff_pos, hoff_le, hlen, hfits, hout⟩ <;> dsimp only <;> omega
    · refine ⟨hbit, hbit_lt, ?_, hdec, hoff, hoff_pos, hoff_le, hlen, hfits, hout⟩
      omega

theorem getD_padded (P l : List Nat) (i : Nat) : (P ++ padded l).getD i 0 = (P ++ l).getD i 0 := by
  rw [padded, ← List.append_assoc]
  by_cases hlt : i < (P ++ l).length
  · rw [List.getD_append _ _ _ _ hlt]
  · rw [List.getD_append_right _ _ _ _ (by omega), List.getD_eq_default (P ++ l) _ (by omega),
      List.getD_eq_getElem?_getD, List.getElem?_getD_replicate_default_eq]

theorem length_padded (l : List Nat) : (padded l).length = 8 * ((l.length + 7) / 8) := by
  rw [padded, List.length_append, List.length_replicate]
  omega

/-- The rest of a word stays zero. -/
theorem Fill.Holds.alignWord {l : List Nat} (h : s.Holds q d (P ++ l)) (hP : P.length % 8 = 0) :
    s.alignWord.Holds q d (P ++ padded l) := by
  obtain ⟨hbit, hbit_lt, hpos, hdec, hoff, hoff_pos, hoff_le, hlen, hfits, hout⟩ := h
  have hpad := length_padded l
  have hout' : ∀ i, pairAt s.out i = (P ++ padded l).getD i 0 := fun i =>
    (hout i).trans (getD_padded P l i).symm
  rw [List.length_append] at hlen hfits
  unfold Fill.alignWord
  split
  · refine ⟨hbit, hbit_lt, hpos, hdec, ?_, ?_, ?_, ?_, ?_, hout'⟩ <;>
      simp only [List.length_append] <;> omega
  · refine ⟨hbit, hbit_lt, hpos, hdec, hoff, hoff_pos, hoff_le, ?_, ?_, hout'⟩ <;>
      rw [List.length_append] <;> omega

theorem Fill.Holds.endRow {l : List Nat} (h : s.Holds q d (P ++ l)) (hP : P.length % 8 = 0) :
    (s.endRow w).Holds (aligned q) (d - w) (P ++ padded l) := by
  obtain ⟨hbit, hbit_lt, hpos, hdec, hoff, hoff_pos, hoff_le, hlen, hfits, hout⟩ :=
    h.alignBits.alignWord hP
  exact ⟨hbit, hbit_lt, hpos, congrArg (· - w) hdec, hoff, hoff_pos, hoff_le, hlen, hfits, hout⟩

/-! ## Fields -/

theorem exists_line (data : Mem) (w q d : Nat) : ∃ cs, Line data w q d cs := by
  by_cases hd : d < w
  · obtain ⟨c, hc⟩ := exists_at data q
    have hpos := c.proper
    have hpixels : 0 < c.pixels w d := by
      unfold Code.pixels
      split <;> omega
    obtain ⟨cs, hcs⟩ := exists_line data w (q + c.size) (d + c.pixels w d)
    exact ⟨c :: cs, hd, hc, hcs⟩
  · exact ⟨[], not_lt.mp hd⟩
termination_by w - d

/-- Every memory has codes of as many rows as are asked for. -/
theorem exists_lines (data : Mem) (w q d n : Nat) :
    ∃ codes, codes.length = n ∧ Lines data w q d codes := by
  induction n generalizing q d with
  | zero => exact ⟨[], rfl, trivial⟩
  | succ n ih =>
    obtain ⟨cs, hcs⟩ := exists_line data w q d
    obtain ⟨codes, hlen, hcodes⟩ :=
      ih (aligned (q + lineSize cs)) (d + (linePixels w d cs).length - w)
    exact ⟨cs :: codes, congrArg (· + 1) hlen, hcs, hcodes⟩

/-- Zeros are a run to the end of the line. -/
theorem pixels_zero (hdata : ∀ i, 2 ^ 16 ≤ i → data i = 0) (hq : 2 ^ 17 ≤ q) (hc : c.At data q) :
    c.size ≤ 4 ∧ c.count = 0 := by
  have hzero : number data q c.size = 0 := by
    refine number_eq_zero fun i _ => ?_
    unfold nibble
    rw [hdata _ (by omega)]
    split <;> rfl
  have hvalue : 4 * c.count + c.color = 0 := hc.symm.trans hzero
  exact ⟨c.size_le, by omega⟩

/-- Behind the longest packet a row is one code. -/
theorem lineSize_le (hdata : ∀ i, 2 ^ 16 ≤ i → data i = 0) (h : Line data w q d cs) :
    q + lineSize cs ≤ max (q + 4) (2 ^ 17 + 7) := by
  induction cs generalizing q d with
  | nil => exact le_max_of_le_left (by rw [lineSize]; simp)
  | cons c cs ih =>
    obtain ⟨hd, hc, hrest⟩ := h
    have hsize : lineSize (c :: cs) = c.size + lineSize cs := List.sum_cons
    have hle := c.size_le
    by_cases hq : 2 ^ 17 ≤ q
    · obtain ⟨-, hcount⟩ := pixels_zero hdata hq hc
      have hpixels : c.pixels w d = w - d := if_pos hcount
      cases cs with
      | nil =>
        have hnil : lineSize [] = 0 := rfl
        omega
      | cons c' cs =>
        have hlt := hrest.1
        omega
    · have := ih hrest
      omega

theorem length_packed (w d : Nat) (pixel : Nat → Nat) (rows : List (List Code)) :
    (packed w pixel d rows).length = 8 * lineWords w d rows := by
  induction rows generalizing d with
  | nil => rfl
  | cons cs rows ih =>
    rw [packed, lineWords, List.length_append, length_padded, ih, List.length_map]
    omega

/-- The field is these pixels, if there is room for them. -/
def Painted (o : Option Fill) (P : List Nat) : Prop :=
  if P.length ≤ 8 * fieldWords then ∃ s, o = some s ∧ ∀ i, pairAt s.out i = P.getD i 0
  else o = none

theorem Fills.bind_painted (h : Fills o q d P)
    (hf : ∀ s : Fill, s.Holds q d P → Painted (f s) (P ++ R)) : Painted (o.bind f) (P ++ R) := by
  unfold Fills at h
  split at h
  · obtain ⟨s, rfl, hs⟩ := h
    exact hf s hs
  · rename_i hlong
    unfold Painted
    rw [if_neg (by rw [List.length_append]; omega), h]
    rfl

/-- **The rows of a field** are written one after another, each from a word on. -/
theorem Fill.Holds.rows {codes : List (List Code)} (h : s.Holds q d P) (hP : P.length % 8 = 0)
    (hlines : Lines data w q d codes) (hdata : ∀ i, 2 ^ 16 ≤ i → data i = 0)
    (hq : max q (2 ^ 17 + 8) + 5 * codes.length < 2 * (vobSubSize - 3))
    (hpixel : ∀ c : Fin 4, pixel c < 4) :
    Painted (Fill.rows data w pixel codes.length s) (P ++ packed w pixel d codes) := by
  induction codes generalizing s q d P with
  | nil =>
    rw [packed, List.append_nil]
    unfold Painted
    rw [if_pos h.fits]
    exact ⟨s, rfl, h.out⟩
  | cons cs codes ih =>
    obtain ⟨hline, hrest⟩ := hlines
    have hsize := lineSize_le hdata hline
    have halign : aligned (q + lineSize cs) ≤ q + lineSize cs + 1 := by
      unfold aligned
      omega
    rw [List.length_cons] at hq
    have hrow := h.row hline (by omega) hpixel
    rw [List.length_cons, Fill.rows, packed, padded, List.append_assoc, ← List.append_assoc P]
    refine hrow.bind_painted fun s' hs' => ?_
    have hnext := ih (hs'.endRow hP) ?_ hrest (by omega)
    · rwa [padded, List.append_assoc, List.append_assoc, ← List.append_assoc P] at hnext
    · rw [List.length_append, length_padded]
      omega

end

/-- **A field** is decoded when its words fit, and is the pixels of its rows. -/
theorem spuFillPixel_spec {data : Mem} {addr : Half} {s : Spu} {codes : List (List Code)}
    (hdata : ∀ i, 2 ^ 16 ≤ i → data i = 0) (hchange : changeData s.alpha < 4)
    (hlines : Lines data s.width (2 * addr) 0 codes) (hlen : codes.length = s.height / 2) :
    if lineWords s.width 0 codes ≤ fieldWords then ∃ out, spuFillPixel data addr s = some out ∧
      ∀ i, pairAt out i = (packed s.width (pixelOf (changeData s.alpha)) 0 codes).getD i 0
    else spuFillPixel data addr s = none := by
  have hstart : (⟨addr, 0, 0, fun _ => 0, 0, 16⟩ : Fill).Holds (2 * addr) 0 [] := by
    constructor <;> simp
  have haddr := addr.isLt
  have hsize : vobSubSize = 614400 := rfl
  have hheight := s.height_le
  have hmax : vobSubHeight = 1280 := rfl
  have hpixel : ∀ c : Fin 4, pixelOf (changeData s.alpha) c < 4 := by
    generalize changeData s.alpha = n at hchange
    intro c
    interval_cases n <;> revert c <;> decide
  have hrows := hstart.rows rfl hlines hdata (by omega) hpixel
  rw [List.nil_append, hlen] at hrows
  unfold Painted at hrows
  rw [length_packed] at hrows
  unfold spuFillPixel
  dsimp only
  rw [if_pos hchange]
  split
  · rw [if_pos (by omega)] at hrows
    obtain ⟨s', hs', hout⟩ := hrows
    exact ⟨s'.out, by rw [hs']; rfl, hout⟩
  · rw [if_neg (by omega)] at hrows
    rw [hrows]
    rfl

end VendorAmlogic.Amsub.Vob
