import Mathlib.Tactic

/-!
# Data taken in blocks

A state that takes data in blocks of `n` items: `absorb f n s xs` takes the whole blocks of `xs`,
and `leftover n xs` is what they leave. Data that comes in pieces is taken as if it came at once, when
what a piece leaves is put before the next one.
-/

namespace VendorAmlogic.Lib

variable {σ α : Type*} (f : σ → List α → σ) (n : Nat)

/-- The first `k` blocks. -/
def absorbBlocks : Nat → σ → List α → σ
  | 0, s, _ => s
  | k + 1, s, xs => absorbBlocks k (f s (xs.take n)) (xs.drop n)

def absorb (s : σ) (xs : List α) : σ := absorbBlocks f n (xs.length / n) s xs

def leftover (xs : List α) : List α := xs.drop (n * (xs.length / n))

variable {f n}

theorem length_leftover (xs : List α) : (leftover n xs).length = xs.length % n := by
  have h := Nat.div_add_mod xs.length n
  rw [leftover, List.length_drop]
  omega

theorem absorb_of_lt {xs : List α} (h : xs.length < n) (s : σ) : absorb f n s xs = s := by
  rw [absorb, Nat.div_eq_of_lt h]
  rfl

theorem leftover_of_lt {xs : List α} (h : xs.length < n) : leftover n xs = xs := by
  rw [leftover, Nat.div_eq_of_lt h, Nat.mul_zero, List.drop_zero]

theorem div_length_append {b : List α} (hn : 0 < n) (hb : b.length = n) (xs : List α) :
    (b ++ xs).length / n = xs.length / n + 1 := by
  rw [List.length_append, hb, Nat.add_div_left _ hn]

theorem absorb_block {b : List α} (hn : 0 < n) (hb : b.length = n) (s : σ) (xs : List α) :
    absorb f n s (b ++ xs) = absorb f n (f s b) xs := by
  rw [absorb, div_length_append hn hb, absorbBlocks, List.take_left' hb, List.drop_left' hb, absorb]

theorem leftover_block {b : List α} (hn : 0 < n) (hb : b.length = n) (xs : List α) :
    leftover n (b ++ xs) = leftover n xs := by
  rw [leftover, div_length_append hn hb, leftover, Nat.mul_add, Nat.mul_one, Nat.add_comm, ← List.drop_drop,
    List.drop_left' hb]

/-- Data is a block and more, or less than a block. -/
theorem block_or_lt (n : Nat) (xs : List α) :
    xs.length < n ∨ ∃ b ys, b.length = n ∧ xs = b ++ ys := by
  rcases Nat.lt_or_ge xs.length n with h | h
  · exact .inl h
  · exact .inr ⟨xs.take n, xs.drop n, List.length_take_of_le h, (List.take_append_drop n xs).symm⟩

/-- **Data in two pieces**: the second one begins with what the first one has left. -/
theorem absorb_append (hn : 0 < n) (s : σ) (xs ys : List α) :
    absorb f n s (xs ++ ys) = absorb f n (absorb f n s xs) (leftover n xs ++ ys) ∧
      leftover n (xs ++ ys) = leftover n (leftover n xs ++ ys) := by
  induction hk : xs.length using Nat.strong_induction_on generalizing xs s with
  | _ k ih =>
    subst hk
    rcases block_or_lt n xs with h | ⟨b, zs, hb, rfl⟩
    · rw [absorb_of_lt h, leftover_of_lt h]
      exact ⟨rfl, rfl⟩
    · have hlt : zs.length < (b ++ zs).length := by
        rw [List.length_append]
        omega
      obtain ⟨hs, ht⟩ := ih _ hlt (f s b) zs rfl
      rw [List.append_assoc, absorb_block hn hb, absorb_block hn hb, leftover_block hn hb,
        leftover_block hn hb]
      exact ⟨hs, ht⟩

end VendorAmlogic.Lib
