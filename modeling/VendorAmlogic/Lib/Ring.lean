import Mathlib.Tactic
import Mathlib.Data.List.Rotate

/-!
# Rings of cells

A ring is a list of cells with a read and a write position. `Holds` says what
it holds: turned to the read position, the cells are what is held and then the
free ones, of which one is always left.
-/

namespace VendorAmlogic.Lib

variable {α : Type*} {cells held free d : List α} {r w n : Nat}

/-- The cells with `d` stored from `i` on. -/
def put (cells : List α) (i : Nat) (d : List α) : List α :=
  cells.take i ++ d ++ cells.drop (i + d.length)

@[simp] theorem put_nil (cells : List α) (i : Nat) : put cells i [] = cells := by simp [put]

theorem length_put (h : n + d.length ≤ cells.length) : (put cells n d).length = cells.length := by
  simp [put]; omega

/-- The cells up to what was stored. -/
theorem take_put (h : n ≤ cells.length) :
    (put cells n d).take (n + d.length) = cells.take n ++ d := by
  have hlen : (cells.take n ++ d).length = n + d.length := by simp; omega
  rw [put, List.take_left' hlen]

theorem rotate_append {l l' : List α} (h : l.length = n) : (l ++ l').rotate n = l' ++ l := by
  rw [← h, List.rotate_append_length_eq]

structure Holds (cells : List α) (r w : Nat) (held free : List α) : Prop where
  cells_eq : cells.rotate r = held ++ free
  free_ne : free ≠ []
  read_lt : r < cells.length
  write_eq : w = (r + held.length) % cells.length

theorem Holds.init (h : cells ≠ []) : Holds cells 0 0 [] cells where
  cells_eq := by simp
  free_ne := h
  read_lt := List.length_pos_of_ne_nil h
  write_eq := by simp

theorem Holds.length_eq (h : Holds cells r w held free) :
    cells.length = held.length + free.length := by
  rw [← List.length_rotate cells r, h.cells_eq, List.length_append]

theorem Holds.free_pos (h : Holds cells r w held free) : 0 < free.length :=
  List.length_pos_of_ne_nil h.free_ne

theorem Holds.write_lt (h : Holds cells r w held free) : w < cells.length := by
  rw [h.write_eq]
  exact Nat.mod_lt _ (by have := h.length_eq; have := h.free_pos; omega)

/-- The write position is behind what is held, and before it where that wraps. -/
theorem Holds.write_cases (h : Holds cells r w held free) :
    w = r + held.length ∨ w + cells.length = r + held.length := by
  have hlen := h.length_eq
  have hlt := h.read_lt
  have hpos := h.free_pos
  by_cases hw : r + held.length < cells.length
  · exact .inl (by rw [h.write_eq, Nat.mod_eq_of_lt hw])
  · right
    rw [h.write_eq, Nat.mod_eq_sub_mod (by omega), Nat.mod_eq_of_lt (by omega)]
    omega

/-- Turned to the write position, the free cells come first. -/
theorem Holds.rotate_write (h : Holds cells r w held free) :
    cells.rotate w = free ++ held := by
  rw [h.write_eq, List.rotate_mod, ← List.rotate_rotate, h.cells_eq, List.rotate_append_length_eq]

/-- What is read, from the read position on. -/
theorem Holds.take (h : Holds cells r w held free) (hn : n ≤ held.length) :
    (cells.rotate r).take n = held.take n := by
  rw [h.cells_eq, List.take_append_of_le_length hn]

/-- Reading frees what it has read. -/
theorem Holds.advance (h : Holds cells r w held free) (hn : n ≤ held.length) :
    Holds cells ((r + n) % cells.length) w (held.drop n) (free ++ held.take n) where
  cells_eq := by
    have hle : n ≤ (held ++ free).length := by simp; omega
    rw [List.rotate_mod, ← List.rotate_rotate, h.cells_eq, List.rotate_eq_drop_append_take hle,
      List.drop_append_of_le_length hn, List.take_append_of_le_length hn, List.append_assoc]
  free_ne := by simp [h.free_ne]
  read_lt := Nat.mod_lt _ (by have := h.read_lt; omega)
  write_eq := by
    rw [h.write_eq, Nat.mod_add_mod, List.length_drop]
    congr 1
    omega

/-- Cells stored from the write position on, which turns to `d` and what was behind it. -/
theorem Holds.stored {cells' : List α} (h : Holds cells r w held free)
    (hlen : cells'.length = cells.length)
    (hput : cells'.rotate w = d ++ (cells.rotate w).drop d.length) (hd : d.length < free.length) :
    Holds cells' r ((w + d.length) % cells.length) (held ++ d) (free.drop d.length) where
  cells_eq := by
    have hback : cells'.rotate r = (cells'.rotate w).rotate free.length := by
      have hturn : (w + free.length) % cells.length = r % cells.length := by
        rw [h.write_eq, Nat.mod_add_mod, Nat.add_assoc, ← h.length_eq, Nat.add_mod_right]
      rw [List.rotate_rotate, ← List.rotate_mod cells' r, ← List.rotate_mod cells' (w + _), hlen,
        hturn]
    have hsplit : d ++ (free ++ held).drop d.length = (d ++ free.drop d.length) ++ held := by
      rw [List.drop_append_of_le_length hd.le, List.append_assoc]
    have hn : (d ++ free.drop d.length).length = free.length := by simp; omega
    rw [hback, hput, h.rotate_write, hsplit, rotate_append hn, List.append_assoc]
  free_ne := by
    intro hnil
    have := congrArg List.length hnil
    simp at this
    omega
  read_lt := by rw [hlen]; exact h.read_lt
  write_eq := by
    rw [hlen, h.write_eq, Nat.mod_add_mod, List.length_append]
    congr 1
    omega

/-- Storing without wrapping. -/
theorem rotate_put (h : w + d.length ≤ cells.length) :
    (put cells w d).rotate w = d ++ (cells.rotate w).drop d.length := by
  have hw : w ≤ cells.length := by omega
  have hw' : w ≤ (put cells w d).length := by rw [length_put h]; exact hw
  have htake : (cells.take w).length = w := by simp; omega
  rw [List.rotate_eq_drop_append_take hw', List.rotate_eq_drop_append_take hw, put,
    List.append_assoc, List.drop_left' htake, List.take_left' htake,
    List.drop_append_of_le_length (by simp; omega), List.drop_drop, List.append_assoc]

/-- Storing up to the end, and then from the front on. -/
theorem rotate_put_put {d₁ d₂ : List α} (h₁ : w + d₁.length = cells.length)
    (h₂ : d₂.length ≤ w) :
    (put (put cells w d₁) 0 d₂).rotate w = d₁ ++ d₂ ++ (cells.rotate w).drop (d₁ ++ d₂).length := by
  have hw : w ≤ cells.length := by omega
  have hput : put cells w d₁ = cells.take w ++ d₁ := by
    rw [put, h₁, List.drop_length, List.append_nil]
  have htake : (cells.take w).length = w := by simp; omega
  have hput' : put (cells.take w ++ d₁) 0 d₂ = (d₂ ++ (cells.take w).drop d₂.length) ++ d₁ := by
    rw [put, List.take_zero, List.nil_append, Nat.zero_add,
      List.drop_append_of_le_length (by omega), List.append_assoc]
  have hlen : (d₂ ++ (cells.take w).drop d₂.length).length = w := by simp; omega
  rw [hput, hput', rotate_append hlen, List.rotate_eq_drop_append_take hw, List.length_append, ← List.drop_drop,
    List.drop_left' (by simp; omega), List.append_assoc]

end VendorAmlogic.Lib
