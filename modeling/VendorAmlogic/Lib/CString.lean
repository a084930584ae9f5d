import Mathlib.Data.List.TakeWhile
import VendorAmlogic.Lib.Bytes

/-!
# C strings

Functions of `string.h`, `ctype.h` and `stdlib.h` on strings, as lists of bytes
without the zero byte at the end.
-/

namespace VendorAmlogic.Lib

/-- The string from the first place where `pat` is. -/
def strstr (pat : List Byte) : List Byte → Option (List Byte)
  | [] => if pat = [] then some [] else none
  | c :: s => if pat.isPrefixOf (c :: s) then some (c :: s) else strstr pat s

/-- The string from the first `c` on. -/
def strchr (c : Byte) : List Byte → Option (List Byte)
  | [] => none
  | d :: s => if d = c then some (d :: s) else strchr c s

/-- The string from the last `c` on. -/
def strrchr (c : Byte) : List Byte → Option (List Byte)
  | [] => none
  | d :: s => (strrchr c s).or (if d = c then some (d :: s) else none)

def isspace (c : Byte) : Bool := c == 0x20 || (0x09 ≤ c && c ≤ 0x0d)

def isdigit (c : Byte) : Bool := 0x30 ≤ c && c ≤ 0x39

def tolower (c : Byte) : Byte := if 0x41 ≤ c && c ≤ 0x5a then c + 0x20 else c

/-- `strncasecmp` finds that `s` starts with `pat`. -/
def startsNoCase (pat s : List Byte) : Bool := (pat.map tolower).isPrefixOf (s.map tolower)

/-- `strcasecmp` finds no difference. -/
def sameNoCase (s t : List Byte) : Bool := s.map tolower = t.map tolower

/-- The string that is in memory here, up to its zero byte. -/
def cstr (mem : List Byte) : List Byte := mem.takeWhile (· ≠ 0)

/-- `strcmp` finds no difference between what is in memory at two places. -/
def strcmpEq (a b : List Byte) : Bool := cstr a = cstr b

/-- Blanks at both ends are cut. -/
def trim (s : List Byte) : List Byte := ((s.dropWhile isspace).reverse.dropWhile isspace).reverse

/-- The value of decimal digits. -/
def decimal (ds : List Byte) : Nat := ds.foldl (fun v d => 10 * v + (d.toNat - 48)) 0

/-- What `strtol` and its kind read: the sign, the number, and where they stop. -/
def readNumber (s : List Byte) : Option (Bool × Nat × List Byte) :=
  let s := s.dropWhile isspace
  let neg := s.head? = some 0x2d
  let s := if neg ∨ s.head? = some 0x2b then s.tail else s
  if (s.takeWhile isdigit) = [] then none
  else some (neg, decimal (s.takeWhile isdigit), s.dropWhile isdigit)

/-- `strtol` in base 10, where a `long` has 64 bits; `none` is that there is no number. -/
def strtol (s : List Byte) : Option (Int × List Byte) :=
  (readNumber s).map fun r =>
    (if r.1 then max (-2 ^ 63) (-(r.2.1 : Int)) else min (2 ^ 63 - 1) (r.2.1 : Int), r.2.2)

/-- `strtoull` in base 10; `none` is that there is no number. -/
def strtoull (s : List Byte) : Option (Nat × List Byte) :=
  (readNumber s).map fun r =>
    (if r.2.1 ≥ 2 ^ 64 then 2 ^ 64 - 1 else if r.1 then u64 (-(r.2.1 : Int)) else r.2.1, r.2.2)

/-- `strlcat` into a buffer of this size. -/
def strlcat (size : Nat) (dst src : List Byte) : List Byte :=
  if dst.length ≥ size then dst else dst ++ src.take (size - 1 - dst.length)

theorem cstr_append {a : List Byte} (h : ∀ x ∈ a, x ≠ 0) (t : List Byte) :
    cstr (a ++ t) = a ++ cstr t :=
  List.takeWhile_append_of_pos fun x hx => decide_eq_true (h x hx)

theorem cstr_zero (t : List Byte) : cstr (0 :: t) = [] := rfl

theorem ne_zero_of_mem_cstr {mem : List Byte} : ∀ b ∈ cstr mem, b ≠ 0 := by
  intro b hb
  have h := List.mem_takeWhile_imp hb
  exact of_decide_eq_true h

theorem strstr_suffix {pat s t : List Byte} (h : strstr pat s = some t) : t <:+ s := by
  induction s with
  | nil =>
    unfold strstr at h
    split at h
    · cases h
      exact List.suffix_refl _
    · cases h
  | cons c s ih =>
    unfold strstr at h
    split at h
    · cases h
      exact List.suffix_refl _
    · exact (ih h).trans (List.suffix_cons c s)

theorem strchr_suffix {c : Byte} {s t : List Byte} (h : strchr c s = some t) : t <:+ s := by
  induction s with
  | nil => cases h
  | cons d s ih =>
    unfold strchr at h
    split at h
    · cases h
      exact List.suffix_refl _
    · exact (ih h).trans (List.suffix_cons d s)

theorem strchr_skip {c : Byte} {s : List Byte} (h : c ∉ s) (t : List Byte) :
    strchr c (s ++ t) = strchr c t := by
  induction s with
  | nil => rfl
  | cons d s ih =>
    obtain ⟨hd, hs⟩ := not_or.mp (fun hmem => h (List.mem_cons.mpr hmem))
    rw [List.cons_append, strchr, if_neg (Ne.symm hd), ih hs]

theorem strchr_append {c : Byte} {s : List Byte} (h : c ∉ s) (t : List Byte) :
    strchr c (s ++ c :: t) = some (c :: t) := by
  rw [strchr_skip h, strchr, if_pos rfl]

theorem strchr_eq_none {c : Byte} {s : List Byte} (h : c ∉ s) : strchr c s = none := by
  simpa [strchr] using strchr_skip h []

theorem strrchr_eq_none {c : Byte} {s : List Byte} (h : c ∉ s) : strrchr c s = none := by
  induction s with
  | nil => rfl
  | cons d s ih =>
    obtain ⟨hd, hs⟩ := not_or.mp (fun hmem => h (List.mem_cons.mpr hmem))
    rw [strrchr, ih hs, if_neg (Ne.symm hd)]
    rfl

theorem strrchr_append {c : Byte} {s : List Byte} (h : c ∉ s) (t : List Byte) :
    strrchr c (t ++ c :: s) = some (c :: s) := by
  induction t with
  | nil => simp [strrchr, strrchr_eq_none h]
  | cons d t ih => simp [strrchr, ih]

theorem strstr_isSome_iff {pat s : List Byte} : (strstr pat s).isSome ↔ pat <:+: s := by
  induction s with
  | nil =>
    unfold strstr
    split
    · rename_i h
      simp [h]
    · rename_i h
      simp [h]
  | cons c s ih =>
    unfold strstr
    split
    · rename_i h
      exact iff_of_true rfl (List.isPrefixOf_iff_prefix.mp h).isInfix
    · rename_i h
      rw [ih, List.infix_cons_iff]
      have h : ¬ pat <+: c :: s := fun hp => h (List.isPrefixOf_iff_prefix.mpr hp)
      simp [h]

end VendorAmlogic.Lib
