import Mathlib.Tactic

/-!
# Bounded histories

A ring buffer of capacity `cap` keeps the last `cap` elements written (`kept`, oldest
first). One reader stands `avail` elements before the end. `rotated` is the
view of a circular file from its oldest element on, with the equations for a
write and a read that do and that do not pass the end of the file.
-/

namespace VendorAmlogic.Lib

variable {α : Type*}

/-- The last `n` elements. -/
def lastN (n : Nat) (l : List α) : List α := l.drop (l.length - n)

@[simp] theorem length_lastN (n : Nat) (l : List α) : (lastN n l).length = min l.length n := by
  simp only [lastN, List.length_drop]; omega

theorem lastN_of_le {n : Nat} {l : List α} (h : l.length ≤ n) : lastN n l = l := by
  simp [lastN, Nat.sub_eq_zero_of_le h]

structure History (α : Type*) where
  cap : Nat
  kept : List α
  avail : Nat
  kept_le : kept.length ≤ cap
  avail_le : avail ≤ kept.length

namespace History

def empty (cap : Nat) : History α := ⟨cap, [], 0, Nat.zero_le _, Nat.zero_le _⟩

/-- Append `d`; a reader that is overrun moves to the oldest element kept. -/
def write (r : History α) (d : List α) : History α where
  cap := r.cap
  kept := lastN r.cap (r.kept ++ d)
  avail := min (r.avail + d.length) r.cap
  kept_le := by rw [length_lastN]; omega
  avail_le := by
    have := r.avail_le
    rw [length_lastN, List.length_append]; omega

/-- What a read of `n` returns. -/
def peek (r : History α) (n : Nat) : List α :=
  (r.kept.drop (r.kept.length - r.avail)).take n

def read (r : History α) (n : Nat) : History α where
  cap := r.cap
  kept := r.kept
  avail := r.avail - n
  kept_le := r.kept_le
  avail_le := by have := r.avail_le; omega

/-- Stand `o` elements after the oldest one. -/
def seek (r : History α) (o : Nat) : History α where
  cap := r.cap
  kept := r.kept
  avail := r.kept.length - o
  kept_le := r.kept_le
  avail_le := by omega

theorem peek_eq_take (r : History α) (n : Nat) :
    r.peek n = (r.kept.drop (r.kept.length - r.avail)).take (min n r.avail) := by
  have := r.avail_le
  rw [peek, List.take_eq_take_iff]
  simp only [List.length_drop]; omega

end History

/-! ## Circular files -/

/-- The contents of a circular file from position `start` on. -/
def rotated (data : List α) (start : Nat) : List α := data.drop start ++ data.take start

@[simp] theorem rotated_zero (data : List α) : rotated data 0 = data := by simp [rotated]

@[simp] theorem length_rotated (data : List α) (start : Nat) :
    (rotated data start).length = data.length := by
  simp only [rotated, List.length_append, List.length_drop, List.length_take]; omega

/-- Writing `d` over the oldest elements, inside the file. -/
theorem rotated_write {data d : List α} {w : Nat} (h : w + d.length ≤ data.length) :
    rotated (data.take w ++ d ++ data.drop (w + d.length)) (w + d.length) =
      lastN data.length (rotated data w ++ d) := by
  have e1 : (data.take w ++ d).length = w + d.length := by
    simp only [List.length_append, List.length_take]; omega
  have e2 : (rotated data w ++ d).length - data.length = d.length := by
    simp only [List.length_append, length_rotated]; omega
  rw [lastN, e2, rotated, ← e1, List.drop_left, List.take_left, e1, rotated, List.append_assoc,
    List.drop_append_of_le_length (by simp only [List.length_drop]; omega), List.drop_drop]

/-- Writing `b` over the beginning of a full file. -/
theorem rotated_overwrite {data b : List α} (hb : b.length ≤ data.length) :
    rotated (b ++ data.drop b.length) b.length = lastN data.length (data ++ b) := by
  rw [lastN, List.length_append, Nat.add_sub_cancel_left, rotated, List.drop_left, List.take_left,
    List.drop_append_of_le_length hb]

/-- Writing `a ++ b` over the oldest elements, `a` up to the end of the file
and `b` from its beginning. -/
theorem rotated_write_wrap {data a b : List α} {w : Nat} (ha : w + a.length = data.length)
    (hb : b.length ≤ w) :
    rotated (b ++ (data.take w ++ a).drop b.length) b.length =
      lastN data.length (rotated data w ++ (a ++ b)) := by
  have e2 : (rotated data w ++ (a ++ b)).length - data.length = a.length + b.length := by
    simp only [List.length_append, length_rotated]; omega
  have e3 : (data.drop w).length = a.length := by simp only [List.length_drop]; omega
  rw [lastN, e2, rotated, List.drop_left, List.take_left, rotated, List.append_assoc,
    ← e3, ← List.drop_drop, List.drop_left,
    List.drop_append_of_le_length (by simp only [List.length_take]; omega),
    List.drop_append_of_le_length (by simp only [List.length_take]; omega), List.append_assoc]

/-- Reading `n` elements at offset `o` from the oldest one, before the end of
the file. -/
theorem peek_before {data : List α} {start o n : Nat} (h : start + o + n ≤ data.length) :
    ((rotated data start).drop o).take n = (data.drop (start + o)).take n := by
  rw [rotated, List.drop_append_of_le_length (by simp only [List.length_drop]; omega),
    List.drop_drop, List.take_append_of_le_length (by simp only [List.length_drop]; omega)]

/-- The same from a position that lies behind the end. -/
theorem peek_behind {data : List α} {start o n : Nat} (hs : start ≤ data.length)
    (h : data.length ≤ start + o) (hn : o + n ≤ data.length) :
    ((rotated data start).drop o).take n = (data.drop (start + o - data.length)).take n := by
  have e : (data.drop start).length = data.length - start := List.length_drop
  rw [rotated, List.drop_append, List.drop_eq_nil_of_le (by omega), List.nil_append, e,
    List.drop_take, List.take_take, show o - (data.length - start) = start + o - data.length by omega]
  congr 1; omega

/-- A read that passes the end of the file. -/
theorem peek_across {data : List α} {start o n : Nat} (h : data.length < start + o + n)
    (ho : start + o ≤ data.length) (hn : o + n ≤ data.length) :
    ((rotated data start).drop o).take n =
      data.drop (start + o) ++ data.take (n - (data.length - (start + o))) := by
  have e : (data.drop (start + o)).length = data.length - (start + o) := List.length_drop
  rw [rotated, List.drop_append_of_le_length (by simp only [List.length_drop]; omega),
    List.drop_drop, List.take_append, List.take_of_length_le (by omega), e, List.take_take]
  congr 2; omega

end VendorAmlogic.Lib
