import Mathlib.Tactic
import VendorAmlogic.Lib.Bytes

/-!
# Memory blocks and byte rings

A memory block is its contents by offset; `copy` is `memcpy` into it and `read`
what is copied out of it. A ring of `N` bytes is filled and emptied in at most
two pieces. Bounds are the caller's.
-/

namespace VendorAmlogic.Lib

abbrev Mem := Nat → Byte

namespace Mem

def copy (m : Mem) (o : Nat) (d : List Byte) : Mem :=
  fun j => if o ≤ j ∧ j < o + d.length then d.getD (j - o) 0 else m j

theorem copy_nil (m : Mem) (o : Nat) : m.copy o [] = m := by
  funext j
  exact if_neg (by simp only [List.length_nil]; omega)

/-- The first byte, and then the rest. -/
theorem copy_cons (m : Mem) (o : Nat) (c : Byte) (d : List Byte) :
    m.copy o (c :: d) = copy (Function.update m o c) (o + 1) d := by
  funext j
  simp only [copy, List.length_cons]
  by_cases hj : j = o
  · subst hj
    rw [if_pos (by omega), if_neg (by omega), Nat.sub_self, List.getD_cons_zero,
      Function.update_self]
  · by_cases hin : o ≤ j ∧ j < o + (d.length + 1)
    · rw [if_pos hin, if_pos (by omega), show j - o = j - (o + 1) + 1 by omega,
        List.getD_cons_succ]
    · rw [if_neg hin, if_neg (by omega), Function.update_of_ne hj]

def read (m : Mem) (o n : Nat) : List Byte := (List.range n).map fun i => m (o + i)

@[simp] theorem length_read (m : Mem) (o n : Nat) : (m.read o n).length = n := by
  simp [read]

theorem getElem?_read {m : Mem} {o n i : Nat} (h : i < n) : (m.read o n)[i]? = some (m (o + i)) := by
  simp [read, h]

theorem getD_read {m : Mem} {o n i : Nat} (h : i < n) : (m.read o n).getD i 0 = m (o + i) := by
  rw [List.getD_eq_getElem?_getD, getElem?_read h, Option.getD_some]

theorem read_congr {m m' : Mem} {o o' n : Nat} (h : ∀ i, i < n → m (o + i) = m' (o' + i)) :
    m.read o n = m'.read o' n := by
  apply List.map_congr_left
  intro i hi
  exact h i (List.mem_range.mp hi)

/-- Lists of the same length are equal when they agree at each place. -/
theorem eq_read {m : Mem} {o n : Nat} {l : List Byte} (hl : l.length = n)
    (h : ∀ i, i < n → m (o + i) = l.getD i 0) : m.read o n = l := by
  apply List.ext_getElem?
  intro i
  by_cases hi : i < n
  · rw [getElem?_read hi, h i hi, List.getD_eq_getElem?_getD,
      List.getElem?_eq_getElem (by omega), Option.getD_some]
  · rw [List.getElem?_eq_none (by simp; omega), List.getElem?_eq_none (by omega)]

@[simp] theorem read_zero (m : Mem) (o : Nat) : m.read o 0 = [] := rfl

/-- What was copied behind the first `o` bytes is read behind them. -/
theorem read_copy_append (m : Mem) (o : Nat) (d : List Byte) :
    (m.copy o d).read 0 (o + d.length) = m.read 0 o ++ d := by
  refine eq_read (by simp) fun i hi => ?_
  rw [List.getD_eq_getElem?_getD, copy]
  by_cases h : o ≤ 0 + i
  · rw [if_pos ⟨h, by omega⟩, List.getElem?_append_right (by simp; omega), length_read,
      List.getD_eq_getElem?_getD, Nat.zero_add]
  · rw [if_neg (by omega), List.getElem?_append_left (by simp; omega), getElem?_read (by omega),
      Option.getD_some]

theorem read_copy (m : Mem) (d : List Byte) : (m.copy 0 d).read 0 d.length = d := by
  have h := read_copy_append m 0 d
  rwa [Nat.zero_add, read_zero, List.nil_append] at h

theorem read_copy_at (m : Mem) (o : Nat) (d : List Byte) : (m.copy o d).read o d.length = d := by
  refine eq_read rfl fun i hi => ?_
  rw [copy, if_pos (by omega), Nat.add_sub_cancel_left]

theorem copy_of_lt {m : Mem} {o j : Nat} {d : List Byte} (h : j < o) : m.copy o d j = m j :=
  if_neg (by omega)

theorem copy_of_le {m : Mem} {o j : Nat} {d : List Byte} (h : o + d.length ≤ j) :
    m.copy o d j = m j :=
  if_neg (by omega)

/-- A copy of what was read. -/
theorem copy_read {m m' : Mem} {o b n i : Nat} (hi : i < n) :
    m'.copy o (m.read b n) (o + i) = m (b + i) := by
  rw [copy, length_read, if_pos (by omega), Nat.add_sub_cancel_left, getD_read hi]

/-- A copy as it is seen from `b` on. -/
theorem copy_shift (m : Mem) (b o : Nat) (d : List Byte) :
    (fun i => m.copy (b + o) d (b + i)) = copy (fun i => m (b + i)) o d := by
  funext i
  unfold copy
  congr 1
  · exact propext (by omega)
  · congr 1
    omega

/-- A copy in two pieces. -/
theorem copy_append (m : Mem) (o : Nat) (d e : List Byte) :
    m.copy o (d ++ e) = (m.copy o d).copy (o + d.length) e := by
  induction d generalizing m o with
  | nil => rw [List.nil_append, copy_nil, List.length_nil, Nat.add_zero]
  | cons c d ih =>
    rw [List.cons_append, copy_cons, copy_cons, ih, List.length_cons, Nat.add_assoc,
      Nat.add_comm 1]

theorem read_succ (m : Mem) (o n : Nat) : m.read o (n + 1) = m o :: m.read (o + 1) n := by
  unfold read
  rw [List.range_succ_eq_map, List.map_cons, List.map_map, Nat.add_zero]
  congr 1
  apply List.map_congr_left
  intro i _
  rw [Function.comp_apply, Nat.succ_eq_add_one, Nat.add_assoc, Nat.add_comm 1]

theorem read_add (m : Mem) (o n k : Nat) : m.read o (n + k) = m.read o n ++ m.read (o + n) k := by
  induction n generalizing o with
  | zero => rw [Nat.zero_add, read_zero, List.nil_append, Nat.add_zero]
  | succ n ih =>
    rw [Nat.add_right_comm, read_succ, ih, read_succ, List.cons_append, Nat.add_assoc,
      Nat.add_comm 1]

/-- The first of two pieces, and the second. -/
theorem read_of_append {m : Mem} {o n : Nat} {a b : List Byte} (h : m.read o n = a ++ b) :
    m.read o a.length = a ∧ m.read (o + a.length) b.length = b := by
  have hn : n = a.length + b.length := by
    rw [← length_read m o n, h, List.length_append]
  rw [hn, read_add] at h
  exact List.append_inj h (length_read ..)

theorem drop_read (m : Mem) (o n k : Nat) : (m.read o n).drop k = m.read (o + k) (n - k) := by
  refine (eq_read (by simp) fun i hi => ?_).symm
  rw [List.getD_eq_getElem?_getD, List.getElem?_drop, getElem?_read (by omega), Option.getD_some,
    Nat.add_assoc]

theorem take_read (m : Mem) (o : Nat) {n k : Nat} (h : k ≤ n) :
    (m.read o n).take k = m.read o k := by
  refine (eq_read (by simp; omega) fun i hi => ?_).symm
  rw [List.getD_eq_getElem?_getD, List.getElem?_take_of_lt hi, getElem?_read (by omega),
    Option.getD_some]

end Mem

/-! ## Rings -/

/-- The copy of `d` into a ring of `N` bytes, at `pos`. -/
def ringPut (N : Nat) (m : Mem) (pos : Nat) (d : List Byte) : Mem :=
  let cnt := N - pos
  if cnt ≥ d.length then m.copy pos d
  else (m.copy pos (d.take cnt)).copy 0 (d.drop cnt)

/-- The copy of `n` bytes out of a ring of `N` bytes, from `pos`. -/
def ringGet (N : Nat) (m : Mem) (pos n : Nat) : List Byte :=
  let cnt := N - pos
  if cnt ≥ n then m.read pos n else m.read pos cnt ++ m.read 0 (n - cnt)

section
variable {N pos n : Nat} {m : Mem} {d : List Byte}

@[simp] theorem length_ringGet : (ringGet N m pos n).length = n := by
  unfold ringGet
  simp only
  split
  · simp
  · simp only [List.length_append, Mem.length_read]; omega

@[simp] theorem ringGet_zero : ringGet N m pos 0 = [] :=
  List.eq_nil_of_length_eq_zero length_ringGet

theorem add_mod_ring {i : Nat} (hp : pos < N) (hi : i ≤ N) :
    (pos + i) % N = if pos + i < N then pos + i else pos + i - N := by
  split
  · exact Nat.mod_eq_of_lt ‹_›
  · rw [Nat.mod_eq_sub_mod (by omega), Nat.mod_eq_of_lt (by omega)]

/-- Byte `i` of a ring. -/
theorem getD_ringGet (hp : pos < N) (hn : n ≤ N) {i : Nat} (hi : i < n) :
    (ringGet N m pos n).getD i 0 = m ((pos + i) % N) := by
  rw [add_mod_ring hp (by omega)]
  unfold ringGet
  simp only
  split
  · rw [Mem.getD_read hi, if_pos (by omega)]
  · rw [List.getD_eq_getElem?_getD]
    by_cases h : i < N - pos
    · rw [List.getElem?_append_left (by simpa using h), Mem.getElem?_read h, Option.getD_some,
        if_pos (by omega)]
    · rw [List.getElem?_append_right (by simpa using h), Mem.length_read,
        Mem.getElem?_read (by omega), Option.getD_some, if_neg (by omega)]
      congr 1; omega

theorem eq_ringGet (hp : pos < N) (hn : n ≤ N) {l : List Byte} (hl : l.length = n)
    (h : ∀ i, i < n → m ((pos + i) % N) = l.getD i 0) : ringGet N m pos n = l := by
  apply List.ext_getElem?
  intro i
  by_cases hi : i < n
  · have h1 := getD_ringGet (m := m) hp hn hi
    rw [h i hi, List.getD_eq_getElem?_getD, List.getD_eq_getElem?_getD,
      List.getElem?_eq_getElem (by simpa using hi), List.getElem?_eq_getElem (by omega)] at h1
    rw [List.getElem?_eq_getElem (by simpa using hi), List.getElem?_eq_getElem (by omega)]
    simpa using h1
  · rw [List.getElem?_eq_none (by simpa using hi), List.getElem?_eq_none (by omega)]

theorem add_mod_cases {i : Nat} (hp : pos < N) (hi : i ≤ N) :
    (pos + i < N ∧ (pos + i) % N = pos + i) ∨ (N ≤ pos + i ∧ (pos + i) % N = pos + i - N) := by
  rw [add_mod_ring hp hi]
  split
  · exact .inl ⟨‹_›, rfl⟩
  · exact .inr ⟨by omega, rfl⟩

/-- The ring after a put, byte by byte. -/
theorem ringPut_apply {k : Nat} (hp : pos < N) (hk : k + d.length ≤ N) {i : Nat}
    (hi : i < k + d.length) :
    ringPut N m ((pos + k) % N) d ((pos + i) % N) =
      if i < k then m ((pos + i) % N) else d.getD (i - k) 0 := by
  have hp' := add_mod_cases (i := k) hp (by omega)
  have hj' := add_mod_cases (i := i) hp (by omega)
  generalize (pos + k) % N = p at hp' ⊢
  generalize (pos + i) % N = j at hj' ⊢
  have htake : ∀ c l, l < c → (d.take c).getD l 0 = d.getD l 0 := fun c l hl => by
    rw [List.getD_eq_getElem?_getD, List.getElem?_take_of_lt hl, List.getD_eq_getElem?_getD]
  have hdrop : ∀ c l, (d.drop c).getD l 0 = d.getD (c + l) 0 := fun c l => by
    rw [List.getD_eq_getElem?_getD, List.getElem?_drop, List.getD_eq_getElem?_getD]
  unfold ringPut Mem.copy
  simp only [List.length_take, List.length_drop, hdrop]
  by_cases hfit : N - p ≥ d.length
  · rw [if_pos hfit]
    by_cases hik : i < k
    · rw [if_neg (by omega), if_pos hik]
    · rw [if_pos (by omega), if_neg hik]
      congr 1; omega
  · rw [if_neg hfit]
    by_cases hik : i < k
    · rw [if_neg (by omega), if_neg (by omega), if_pos hik]
    · rw [if_neg hik]
      by_cases hw : j < p
      · rw [if_pos (by omega)]
        congr 1; omega
      · rw [if_neg (by omega), if_pos (by omega), htake _ _ (by omega)]
        congr 1; omega

/-- What is put behind the `k` bytes of a ring is got behind them. -/
theorem ringGet_put {k : Nat} (hp : pos < N) (hk : k + d.length ≤ N) :
    ringGet N (ringPut N m ((pos + k) % N) d) pos (k + d.length) = ringGet N m pos k ++ d := by
  refine eq_ringGet hp hk (by simp) fun i hi => ?_
  rw [ringPut_apply hp hk hi]
  simp only [List.getD_eq_getElem?_getD]
  by_cases hik : i < k
  · rw [if_pos hik, List.getElem?_append_left (by simpa using hik), ← List.getD_eq_getElem?_getD,
      getD_ringGet hp (by omega) hik]
  · rw [if_neg hik, List.getElem?_append_right (by simpa using hik), length_ringGet]

/-- A ring without its first `k` bytes. -/
theorem ringGet_drop {k : Nat} (hp : pos < N) (hn : n ≤ N) (hk : k ≤ n) :
    ringGet N m ((pos + k) % N) (n - k) = (ringGet N m pos n).drop k := by
  have hN : 0 < N := by omega
  refine eq_ringGet (Nat.mod_lt _ hN) (by omega) (by simp) fun i hi => ?_
  rw [Nat.mod_add_mod, List.getD_eq_getElem?_getD, List.getElem?_drop, ← List.getD_eq_getElem?_getD,
    getD_ringGet hp hn (by omega), Nat.add_assoc]

theorem ringGet_take {k : Nat} (hp : pos < N) (hn : n ≤ N) (hk : k ≤ n) :
    ringGet N m pos k = (ringGet N m pos n).take k := by
  refine eq_ringGet hp (by omega) (by simp; omega) fun i hi => ?_
  rw [List.getD_eq_getElem?_getD, List.getElem?_take_of_lt hi, ← List.getD_eq_getElem?_getD,
    getD_ringGet hp hn (by omega)]

end

end VendorAmlogic.Lib
