import Mathlib.Tactic

/-!
# Bubble sort

A pass compares neighbours from the left and swaps those that are out of order,
so the greatest of what it has seen is behind it. The passes get shorter by one.
-/

namespace VendorAmlogic.Lib

variable {α κ : Type*} [LinearOrder κ] (key : α → κ)

/-- The first `n` comparisons. -/
def bubblePass : Nat → List α → List α
  | n + 1, a :: b :: l =>
    if key b < key a then b :: bubblePass n (a :: l) else a :: bubblePass n (b :: l)
  | _, l => l

/-- Passes of `i - 1` down to no comparisons. -/
def bubbleSort : Nat → List α → List α
  | 0, l => l
  | i + 1, l => bubbleSort i (bubblePass key i l)

/-- A pass over `a :: front` leaves its greatest element at the end. -/
theorem bubblePass_spec (a : α) (front back : List α) :
    ∃ front' m, bubblePass key front.length (a :: front ++ back) = front' ++ m :: back ∧
      (front' ++ [m]).Perm (a :: front) ∧ ∀ b ∈ front', key b ≤ key m := by
  induction front generalizing a with
  | nil => exact ⟨[], a, rfl, .refl _, fun _ h => absurd h List.not_mem_nil⟩
  | cons b front ih =>
    -- the element that stays behind is not above the one that goes on
    have stays (x y : α) (hxy : key x ≤ key y) (hperm : (x :: y :: front).Perm (a :: b :: front)) :
        ∃ front' m, x :: bubblePass key front.length (y :: front ++ back) =
            front' ++ m :: back ∧
          (front' ++ [m]).Perm (a :: b :: front) ∧ ∀ c ∈ front', key c ≤ key m := by
      obtain ⟨front', m, heq, hp, hle⟩ := ih y
      refine ⟨x :: front', m, by rw [heq]; rfl, (hp.cons x).trans hperm, ?_⟩
      have hy : key y ≤ key m := by
        rcases List.mem_append.mp (hp.mem_iff.mpr List.mem_cons_self) with h | h
        · exact hle y h
        · rw [List.mem_singleton.mp h]
      intro c hc
      rcases List.mem_cons.mp hc with rfl | hc
      · exact hxy.trans hy
      · exact hle c hc
    simp only [List.length_cons, List.cons_append, bubblePass]
    split
    · rename_i hlt
      exact stays b a hlt.le (.swap a b front)
    · rename_i hlt
      exact stays a b (not_lt.mp hlt) (.refl _)

/-- The sort of `front`, when `back` is sorted and above it. -/
theorem bubbleSort_spec (front back : List α) (hback : back.Pairwise (fun a b => key a ≤ key b))
    (hle : ∀ a ∈ front, ∀ b ∈ back, key a ≤ key b) :
    (bubbleSort key front.length (front ++ back)).Perm (front ++ back) ∧
      (bubbleSort key front.length (front ++ back)).Pairwise (fun a b => key a ≤ key b) := by
  generalize hn : front.length = n
  induction n generalizing front back with
  | zero =>
    obtain rfl := List.length_eq_zero_iff.mp hn
    exact ⟨.refl _, hback⟩
  | succ n ih =>
    obtain ⟨a, front, rfl⟩ := List.exists_cons_of_length_eq_add_one hn
    obtain ⟨front', m, heq, hp, hm⟩ := bubblePass_spec key a front back
    have hlen : front'.length = n := by
      have h := hp.length_eq
      simp only [List.length_append, List.length_cons, List.length_nil] at h hn
      omega
    have hmem : ∀ b ∈ front' ++ [m], ∀ c ∈ back, key b ≤ key c := fun b hb c hc =>
      hle b (hp.mem_iff.mp hb) c hc
    have hback' : (m :: back).Pairwise (fun a b => key a ≤ key b) :=
      List.pairwise_cons.mpr ⟨hmem m (by simp), hback⟩
    have hle' : ∀ b ∈ front', ∀ c ∈ m :: back, key b ≤ key c := by
      intro b hb c hc
      rcases List.mem_cons.mp hc with rfl | hc
      · exact hm b hb
      · exact hmem b (List.mem_append_left _ hb) c hc
    obtain ⟨hperm, hsorted⟩ := ih front' (m :: back) hback' hle' hlen
    have hfront : front.length = n := by simpa using hn
    rw [bubbleSort, ← hfront, heq, hfront]
    refine ⟨hperm.trans ?_, hsorted⟩
    rw [List.append_cons]
    exact hp.append_right back

/-- **Bubble sort sorts.** -/
theorem bubbleSort_sorts (l : List α) :
    (bubbleSort key l.length l).Perm l ∧
      (bubbleSort key l.length l).Pairwise (fun a b => key a ≤ key b) := by
  have h := bubbleSort_spec key l [] .nil fun _ _ _ h => absurd h List.not_mem_nil
  rwa [List.append_nil] at h

end VendorAmlogic.Lib
