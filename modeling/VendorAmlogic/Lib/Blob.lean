import VendorAmlogic.Lib.Stdio

/-!
# Reads of a blob

Bytes, words and strings of a list of bytes, where a read that does not lie in
it is `none`; and the sum of its words, in which the bytes behind the last whole
word count as a word with zeros.
-/

namespace VendorAmlogic.Lib

variable {b s : List Byte} {o n : Nat}

/-! ## Bytes and words -/

def readBytes (b : List Byte) (o n : Nat) : Option (List Byte) :=
  if o + n ≤ b.length then some ((b.drop o).take n) else none

/-- A little-endian word. -/
def readWord (b : List Byte) (o : Nat) : Option Nat := (readBytes b o 4).map ofLe

theorem readBytes_eq_some {d : List Byte} :
    readBytes b o n = some d ↔ o + n ≤ b.length ∧ d = (b.drop o).take n := by
  unfold readBytes
  split
  · rename_i h
    rw [Option.some_inj, and_iff_right h]
    exact eq_comm
  · rename_i h
    exact iff_of_false (Option.some_ne_none _).symm fun h' => h h'.1

theorem readBytes_of_le (h : o + n ≤ b.length) : readBytes b o n = some ((b.drop o).take n) :=
  if_pos h

theorem readBytes_of_lt (h : b.length < o + n) : readBytes b o n = none :=
  if_neg (by omega)

theorem length_of_readBytes {d : List Byte} (h : readBytes b o n = some d) : d.length = n := by
  obtain ⟨hle, rfl⟩ := readBytes_eq_some.mp h
  rw [List.length_take, List.length_drop]
  omega

def wordAt (b : List Byte) (o : Nat) : Nat := ofLe ((b.drop o).take 4)

theorem wordAt_take {m : Nat} (h : o + 4 ≤ m) : wordAt (b.take m) o = wordAt b o := by
  unfold wordAt
  rw [List.drop_take, List.take_take, Nat.min_eq_left (by omega)]

theorem readWord_of_le (h : o + 4 ≤ b.length) : readWord b o = some (wordAt b o) := by
  rw [readWord, readBytes_of_le h]
  rfl

theorem readWord_of_lt (h : b.length < o + 4) : readWord b o = none := by
  rw [readWord, readBytes_of_lt h]
  rfl

theorem wordAt_lt (b : List Byte) (o : Nat) : wordAt b o < 2 ^ 32 := by
  have hlt := ofLe_lt ((b.drop o).take 4)
  have hle : ((b.drop o).take 4).length ≤ 4 := List.length_take_le 4 _
  calc wordAt b o < 256 ^ ((b.drop o).take 4).length := hlt
    _ ≤ 256 ^ 4 := Nat.pow_le_pow_right (by decide) hle

/-- A number cut to its low bytes. -/
theorem ofLe_mod (s : List Byte) (k : Nat) : ofLe s % 256 ^ k = ofLe (s.take k) := by
  induction k generalizing s with
  | zero => rw [Nat.pow_zero, Nat.mod_one, List.take_zero, ofLe]
  | succ k ih =>
    cases s with
    | nil => exact Nat.zero_mod _
    | cons c cs =>
      have hc : c.toNat < 256 := c.isLt
      have hlow : ofLe cs % 256 ^ k < 256 ^ k := Nat.mod_lt _ (Nat.pow_pos (by decide))
      have hsplit : c.toNat + 256 * ofLe cs =
          c.toNat + 256 * (ofLe cs % 256 ^ k) + 256 ^ (k + 1) * (ofLe cs / 256 ^ k) := by
        have hdiv : ofLe cs = ofLe cs % 256 ^ k + 256 ^ k * (ofLe cs / 256 ^ k) :=
          (Nat.mod_add_div _ _).symm
        rw [Nat.pow_succ]
        linarith
      rw [List.take_succ_cons, ofLe, ofLe, ← ih, hsplit, Nat.add_mul_mod_self_left,
        Nat.mod_eq_of_lt]
      rw [Nat.pow_succ]
      omega

/-! ## Strings -/

/-- `!strcmp`, of the string at `o` and one that ends with its zero byte: the bytes are
compared up to the first difference. -/
def readString (b : List Byte) : Nat → List Byte → Option Bool
  | _, [] => some true
  | o, c :: cs => do
    let v ← b[o]?
    if v = c then readString b (o + 1) cs else some false

/-- The blob ends while the bytes are still the same. -/
def Cut (rest s : List Byte) : Prop := rest <+: s ∧ rest ≠ s

instance (rest s : List Byte) : Decidable (Cut rest s) := inferInstanceAs (Decidable (_ ∧ _))

theorem readString_eq (b : List Byte) (o : Nat) (s : List Byte) :
    readString b o s =
      if Cut (b.drop o) s then none else some (decide (s <+: b.drop o)) := by
  induction s generalizing o with
  | nil =>
    rw [if_neg fun h : Cut (b.drop o) [] => h.2 (List.prefix_nil.mp h.1)]
    simp [readString]
  | cons c cs ih =>
    unfold readString
    by_cases ho : o < b.length
    · have hdrop : b.drop o = b[o] :: b.drop (o + 1) := List.drop_eq_getElem_cons ho
      rw [List.getElem?_eq_getElem ho]
      show (if b[o] = c then readString b (o + 1) cs else some false) = _
      by_cases hc : b[o] = c
      · rw [if_pos hc, ih, hdrop, hc]
        have hcut : Cut (c :: b.drop (o + 1)) (c :: cs) ↔ Cut (b.drop (o + 1)) cs := by
          simp only [Cut, List.cons_prefix_cons, true_and, ne_eq, List.cons.injEq]
        simp only [hcut, List.cons_prefix_cons, true_and]
      · have hcut : ¬ Cut (b[o] :: b.drop (o + 1)) (c :: cs) := fun h =>
          hc (List.cons_prefix_cons.mp h.1).1
        have hpre : ¬ c :: cs <+: b[o] :: b.drop (o + 1) := fun h =>
          hc (List.cons_prefix_cons.mp h).1.symm
        rw [if_neg hc, hdrop, if_neg hcut, decide_eq_false hpre]
    · have hnil : b.drop o = [] := List.drop_eq_nil_of_le (by omega)
      have hcut : Cut [] (c :: cs) := ⟨List.nil_prefix, (List.cons_ne_nil _ _).symm⟩
      rw [List.getElem?_eq_none (by omega), hnil, if_pos hcut]
      rfl

/-! ## The sum of the words -/

def wordSum : List Byte → BitVec 32
  | a :: b :: c :: d :: rest => BitVec.ofNat 32 (ofLe [a, b, c, d]) + wordSum rest
  | rest => BitVec.ofNat 32 (ofLe rest)

theorem wordSum_split (h : 4 ≤ s.length) :
    wordSum s = BitVec.ofNat 32 (ofLe (s.take 4)) + wordSum (s.drop 4) := by
  match s, h with
  | a :: b :: c :: d :: rest, _ => rfl

theorem wordSum_of_lt (h : s.length < 4) : wordSum s = BitVec.ofNat 32 (ofLe s) := by
  match s, h with
  | [], _ => rfl
  | [_], _ => rfl
  | [_, _], _ => rfl
  | [_, _, _], _ => rfl
  | _ :: _ :: _ :: _ :: _, h => exact absurd h (by simp only [List.length_cons]; omega)

/-- Whole words, and the bytes behind them. -/
theorem wordSum_append {a : List Byte} (h : 4 ∣ a.length) (b : List Byte) :
    wordSum (a ++ b) = wordSum a + wordSum b := by
  obtain ⟨n, hn⟩ := h
  induction n generalizing a with
  | zero =>
    obtain rfl : a = [] := List.eq_nil_of_length_eq_zero hn
    exact (BitVec.zero_add _).symm
  | succ n ih =>
    have hlen : (a.drop 4).length = 4 * n := by
      rw [List.length_drop]
      omega
    have hle : 4 ≤ (a ++ b).length := by
      rw [List.length_append]
      omega
    rw [wordSum_split hle, wordSum_split (s := a) (by omega),
      List.take_append_of_le_length (by omega), List.drop_append_of_le_length (by omega), ih hlen,
      BitVec.add_assoc]

end VendorAmlogic.Lib
