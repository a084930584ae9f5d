import Mathlib.Tactic

/-!
# Bytes, machine integers and byte files

Conversions between C integer types, and the effect of `write` at a file
offset on the contents of a byte file.
-/

namespace VendorAmlogic.Lib

abbrev Byte := BitVec 8

/-- The bytes of a string literal. -/
def bytes (s : String) : List Byte := s.toList.map fun c => BitVec.ofNat 8 c.toNat

/-- Conversion to an unsigned 64-bit type. -/
def u64 (x : Int) : Nat := (x % 2 ^ 64).toNat

/-- Conversion to an unsigned 32-bit type. -/
def u32 (x : Int) : Nat := (x % 2 ^ 32).toNat

/-- Conversion to a signed 32-bit type. -/
def i32 (x : Int) : Int := x.bmod (2 ^ 32)

/-- Conversion to a signed 64-bit type. -/
def i64 (x : Int) : Int := x.bmod (2 ^ 64)

theorem u64_cast {x : Int} (h0 : 0 ≤ x) (h1 : x < 2 ^ 64) : (u64 x : Int) = x := by
  unfold u64
  rw [Int.emod_eq_of_lt h0 h1, Int.toNat_of_nonneg h0]

theorem u64_natCast {n : Nat} (h : n < 2 ^ 64) : u64 n = n := by
  have := u64_cast (x := n) (by omega) (by omega)
  omega

theorem u32_natCast {n : Nat} (h : n < 2 ^ 32) : u32 n = n := by
  unfold u32
  omega

theorem u32_sub {m n : Nat} (h : n ≤ m) (hm : m < 2 ^ 32) : u32 (m - n) = m - n := by
  unfold u32
  omega

theorem i32_eq_self {x : Int} (h0 : -2 ^ 31 ≤ x) (h1 : x < 2 ^ 31) : i32 x = x :=
  Int.bmod_eq_of_le (by omega) (by omega)

/-- A signed number survives the way over the unsigned type. -/
theorem i32_u32 {x : Int} (h0 : -2 ^ 31 ≤ x) (h1 : x < 2 ^ 31) : i32 (u32 x) = x := by
  unfold i32 u32
  rw [Int.bmod_def]
  omega

/-- An unsigned number that stays positive stays the same. -/
theorem i32_of_pos {n : Nat} (h : n < 2 ^ 32) (hp : 0 < i32 n) : i32 n = n := by
  unfold i32 at hp ⊢
  rw [Int.bmod_def] at hp ⊢
  omega

theorem i64_eq_self {x : Int} (h0 : -2 ^ 63 ≤ x) (h1 : x < 2 ^ 63) : i64 x = x :=
  Int.bmod_eq_of_le (by omega) (by omega)

theorem i64_lt (x : Int) : i64 x < 2 ^ 63 := by
  have := Int.bmod_lt (x := x) (m := 2 ^ 64) (by decide)
  unfold i64; omega

theorem i64_add_i64 (x y : Int) : i64 (i64 x + y) = i64 (x + y) := by
  unfold i64
  rw [Int.bmod_add_bmod]

theorem i32_lt (x : Int) : i32 x < 2 ^ 31 := by
  have := Int.bmod_lt (x := x) (m := 2 ^ 32) (by decide)
  unfold i32; omega

theorem neg_le_i32 (x : Int) : -2 ^ 31 ≤ i32 x := by
  have := Int.le_bmod (x := x) (m := 2 ^ 32) (by decide)
  unfold i32; omega

/-- The contents of a file after writing `d` at offset `o`; a gap reads as zero. -/
def overwrite (data : List Byte) (o : Nat) (d : List Byte) : List Byte :=
  data.take o ++ List.replicate (o - data.length) 0 ++ d ++ data.drop (o + d.length)

theorem overwrite_of_le {data d : List Byte} {o : Nat} (h : o ≤ data.length) :
    overwrite data o d = data.take o ++ d ++ data.drop (o + d.length) := by
  simp [overwrite, Nat.sub_eq_zero_of_le h]

theorem overwrite_end (data d : List Byte) : overwrite data data.length d = data ++ d := by
  simp [overwrite]

theorem length_overwrite {data d : List Byte} {o : Nat} (h : o + d.length ≤ data.length) :
    (overwrite data o d).length = data.length := by
  rw [overwrite_of_le (by omega)]
  simp only [List.length_append, List.length_take, List.length_drop]
  omega

@[simp] theorem overwrite_nil {data : List Byte} {o : Nat} (h : o ≤ data.length) :
    overwrite data o [] = data := by
  simp [overwrite_of_le h]

theorem getElem?_overwrite_inside {data d : List Byte} {o x : Nat} (h : o ≤ x)
    (h' : x < o + d.length) : (overwrite data o d)[x]? = d[x - o]? := by
  have hfront : (data.take o ++ List.replicate (o - data.length) (0 : Byte)).length = o := by
    simp
    omega
  rw [overwrite, List.append_assoc, List.getElem?_append_right (by omega), hfront,
    List.getElem?_append_left (by omega)]

theorem getElem?_overwrite_outside {data d : List Byte} {o x : Nat} (h : x < o ∨ o + d.length ≤ x)
    (hx : x < data.length) : (overwrite data o d)[x]? = data[x]? := by
  have hfront : (data.take o ++ List.replicate (o - data.length) (0 : Byte)).length = o := by
    simp
    omega
  rcases h with h | h
  · rw [overwrite, List.append_assoc, List.append_assoc, List.getElem?_append_left (by simp; omega),
      List.getElem?_take_of_lt h]
  · rw [overwrite, List.append_assoc, List.getElem?_append_right (by omega), hfront,
      List.getElem?_append_right (by omega), List.getElem?_drop]
    congr 1
    omega

/-- A list is split at the first place of a byte. -/
theorem split_of_findIdx? {l : List Byte} {b : Byte} {i : Nat} (h : l.findIdx? (· == b) = some i) :
    ∃ pre post, l = pre ++ b :: post ∧ b ∉ pre ∧ pre.length = i := by
  obtain ⟨hi, hget, hbefore⟩ := List.findIdx?_eq_some_iff_getElem.mp h
  refine ⟨l.take i, l.drop (i + 1), ?_, fun hmem => ?_, List.length_take_of_le hi.le⟩
  · rw [← beq_iff_eq.mp hget, ← List.drop_eq_getElem_cons hi, List.take_append_drop]
  · obtain ⟨j, hj, hx⟩ := List.getElem_of_mem hmem
    rw [List.length_take] at hj
    rw [List.getElem_take] at hx
    have := hbefore j (by omega)
    simp [hx] at this

theorem not_mem_of_findIdx? {l : List Byte} {b : Byte} (h : l.findIdx? (· == b) = none) : b ∉ l := by
  intro hmem
  simpa using List.findIdx?_eq_none_iff.mp h b hmem

/-- There is one way to split a list at the first byte of a kind. -/
theorem append_cons_inj_of_stop {p : Byte → Bool} {b c : Byte} {x y s t : List Byte}
    (hx : ∀ d ∈ x, p d = false) (hy : ∀ d ∈ y, p d = false) (hb : p b = true) (hc : p c = true)
    (h : x ++ b :: s = y ++ c :: t) : x = y ∧ b = c ∧ s = t := by
  induction x generalizing y with
  | nil =>
    cases y with
    | nil => exact ⟨rfl, List.cons.inj h⟩
    | cons d y =>
      rw [(List.cons.inj h).1, hy d List.mem_cons_self] at hb
      cases hb
  | cons d x ih =>
    cases y with
    | nil =>
      rw [← (List.cons.inj h).1, hx d List.mem_cons_self] at hc
      cases hc
    | cons e y =>
      obtain ⟨rfl, htail⟩ := List.cons.inj h
      obtain ⟨rfl, hrest⟩ := ih (fun e he => hx e (List.mem_cons_of_mem d he))
        (fun e he => hy e (List.mem_cons_of_mem d he)) htail
      exact ⟨rfl, hrest⟩

/-- There is one way to split a list at the first place of a byte. -/
theorem append_cons_inj_of_first {b : Byte} {x y s t : List Byte} (hx : b ∉ x) (hy : b ∉ y)
    (h : x ++ b :: s = y ++ b :: t) : x = y ∧ s = t := by
  have hno {z : List Byte} (hz : b ∉ z) : ∀ d ∈ z, (d == b) = false := fun d hd => by
    simpa using fun hdb : d = b => hz (hdb ▸ hd)
  obtain ⟨hxy, -, hst⟩ := append_cons_inj_of_stop (p := (· == b)) (hno hx) (hno hy) (beq_self_eq_true b)
    (beq_self_eq_true b) h
  exact ⟨hxy, hst⟩

end VendorAmlogic.Lib
