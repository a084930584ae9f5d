import Mathlib.Data.List.GetD
import VendorAmlogic.Lib.History

/-!
# Windows of a list

`ago z xs j` is the element that was the last one `j` elements before, and `z`
before the first. A ring of `n` cells keeps the last `n` of them, and the sum of
a window changes by the element that comes in and the one that leaves.
-/

namespace VendorAmlogic.Lib

/-! ## Elements by their age -/

section Ago

variable {α β : Type*} {z : α} {xs : List α} {d : α} {j n w : Nat} {cells : Nat → α}

def ago (z : α) (xs : List α) (j : Nat) : α := xs.reverse.getD j z

theorem ago_append_zero (z : α) (xs : List α) (d : α) : ago z (xs ++ [d]) 0 = d := by
  rw [ago, List.reverse_concat]
  rfl

theorem ago_append_succ (z : α) (xs : List α) (d : α) (j : Nat) :
    ago z (xs ++ [d]) (j + 1) = ago z xs j := by
  rw [ago, List.reverse_concat]
  rfl

theorem ago_map (f : α → β) (z : α) (xs : List α) (j : Nat) :
    ago (f z) (xs.map f) j = f (ago z xs j) := by
  rw [ago, ago, ← List.map_reverse, List.getD_map]

/-- The last `n` elements are in the cells, the next one comes where the oldest of them is. -/
def KeptIn (n : Nat) (z : α) (cells : Nat → α) (xs : List α) : Prop :=
  ∀ j, j < n → cells ((xs.length + (n - 1 - j)) % n) = ago z xs j

theorem KeptIn.init (n : Nat) (z : α) : KeptIn n z (fun _ => z) [] := fun _ _ => rfl

theorem KeptIn.oldest (h : KeptIn (n + 1) z cells xs) :
    cells (xs.length % (n + 1)) = ago z xs n := by
  have hlast := h n (Nat.lt_succ_self n)
  rwa [Nat.add_sub_cancel, Nat.sub_self, Nat.add_zero] at hlast

theorem add_mod_ne {c a : Nat} (h0 : 0 < a) (h : a < n) : (c + a) % n ≠ c % n := by
  intro heq
  have hmod : a ≡ 0 [MOD n] := Nat.ModEq.add_left_cancel' c heq
  exact h0.ne' (Nat.eq_zero_of_dvd_of_lt ((Nat.modEq_zero_iff_dvd).mp hmod) h)

theorem KeptIn.push (h : KeptIn n z cells xs) (d : α) :
    KeptIn n z (Function.update cells (xs.length % n) d) (xs ++ [d]) := by
  intro j hj
  have hslot : (xs ++ [d]).length + (n - 1 - j) = xs.length + (n - j) := by
    rw [List.length_append, List.length_singleton]
    omega
  rw [hslot]
  cases j with
  | zero => rw [Nat.sub_zero, Nat.add_mod_right, Function.update_self, ago_append_zero]
  | succ j =>
    rw [Function.update_of_ne (add_mod_ne (by omega) (by omega)), ago_append_succ, ← h j (by omega)]
    congr 2
    omega

/-- The cell that is `w` elements before the next one. -/
theorem KeptIn.before (h : KeptIn n z cells xs) (hw : 0 < w) (hn : w < n) (d : α) :
    Function.update cells (xs.length % n) d ((xs.length + (n - w)) % n) = ago z xs (w - 1) := by
  have hcell := h.push d w hn
  obtain ⟨v, rfl⟩ : ∃ v, w = v + 1 := ⟨w - 1, by omega⟩
  rw [ago_append_succ] at hcell
  rw [Nat.add_sub_cancel, ← hcell, List.length_append, List.length_singleton]
  congr 2
  omega

end Ago

/-! ## Sums -/

section Sum

variable {G : Type*} [AddCommGroup G]

def windowSum (w : Nat) (xs : List G) : G := (lastN w xs).sum

theorem windowSum_nil (w : Nat) : windowSum w ([] : List G) = 0 := by
  rw [windowSum, lastN, List.drop_nil, List.sum_nil]

/-- What comes in, and what leaves. -/
theorem windowSum_append (w : Nat) (xs : List G) (d : G) :
    windowSum (w + 1) (xs ++ [d]) = windowSum (w + 1) xs - ago 0 xs w + d := by
  unfold windowSum
  by_cases h : xs.length ≤ w
  · have hnone : ago 0 xs w = 0 := List.getD_eq_default _ _ (by rw [List.length_reverse]; exact h)
    rw [lastN_of_le (by rw [List.length_append, List.length_singleton]; omega),
      lastN_of_le (by omega), List.sum_append, List.sum_singleton, hnone, sub_zero]
  · have hlt : xs.length - (w + 1) < xs.length := by omega
    have hnew : lastN (w + 1) (xs ++ [d]) = xs.drop (xs.length - (w + 1) + 1) ++ [d] := by
      rw [lastN, List.length_append, List.length_singleton,
        List.drop_append_of_le_length (by omega)]
      congr 2
      omega
    have hold : lastN (w + 1) xs = ago 0 xs w :: xs.drop (xs.length - (w + 1) + 1) := by
      have hget : ago 0 xs w = xs[xs.length - (w + 1)] := by
        rw [ago, List.getD_eq_getElem _ _ (by rw [List.length_reverse]; omega),
          List.getElem_reverse]
        congr 1
        omega
      rw [lastN, List.drop_eq_getElem_cons hlt, hget]
    rw [hnew, hold, List.sum_append, List.sum_singleton, List.sum_cons, add_sub_cancel_left]

end Sum

end VendorAmlogic.Lib
