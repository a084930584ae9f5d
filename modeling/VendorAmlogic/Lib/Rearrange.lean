import Mathlib.Tactic
import Mathlib.Order.Interval.Finset.Defs
import Mathlib.Data.Int.Interval

/-!
# Rearranging a range in place

An array is a function of its index. `Rearranged l r s s'` says that `s'` has
the elements of `s`, where only those from `l` to `r` may have changed places.
A sort with a hole keeps that of the array with the element it holds put back
into the hole; `SortedOn.join` is the step from a partition to a sorted range.
-/

namespace VendorAmlogic.Lib

section Rearranged

variable {α : Type*} {l r l' r' : Int} {s t u : Int → α}

def Rearranged (l r : Int) (s s' : Int → α) : Prop :=
  ∃ e : Equiv.Perm Int, (∀ k, k < l ∨ r < k → e k = k) ∧ ∀ k, s' k = s (e k)

theorem Rearranged.refl (l r : Int) (s : Int → α) : Rearranged l r s s :=
  ⟨Equiv.refl Int, fun _ _ => rfl, fun _ => rfl⟩

theorem Rearranged.trans (h : Rearranged l r s t) (h' : Rearranged l r t u) :
    Rearranged l r s u := by
  obtain ⟨e, hout, heq⟩ := h
  obtain ⟨f, hout', heq'⟩ := h'
  refine ⟨f.trans e, fun k hk => ?_, fun k => ?_⟩
  · rw [Equiv.trans_apply, hout' k hk, hout k hk]
  · rw [heq', heq]
    rfl

/-- A wider range. -/
theorem Rearranged.mono (h : Rearranged l r s t) (hl : l' ≤ l) (hr : r ≤ r') :
    Rearranged l' r' s t := by
  obtain ⟨e, hout, heq⟩ := h
  exact ⟨e, fun k hk => hout k (by omega), heq⟩

theorem Rearranged.outside (h : Rearranged l r s t) {k : Int} (hk : k < l ∨ r < k) : t k = s k := by
  obtain ⟨e, hout, heq⟩ := h
  rw [heq, hout k hk]

/-- An element of the range was in the range. -/
theorem Rearranged.inside (h : Rearranged l r s t) {k : Int} (hl : l ≤ k) (hr : k ≤ r) :
    ∃ k', l ≤ k' ∧ k' ≤ r ∧ t k = s k' := by
  obtain ⟨e, hout, heq⟩ := h
  refine ⟨e k, ?_, ?_, heq k⟩
  · by_contra hlt
    have hfix := e.injective (hout (e k) (.inl (by omega)))
    omega
  · by_contra hlt
    have hfix := e.injective (hout (e k) (.inr (by omega)))
    omega

/-- What holds of all elements of the range holds of them in any order. -/
theorem Rearranged.forall (h : Rearranged l r s t) {p : α → Prop}
    (hp : ∀ k, l ≤ k → k ≤ r → p (s k)) : ∀ k, l ≤ k → k ≤ r → p (t k) := by
  intro k hl hr
  obtain ⟨k', hl', hr', heq⟩ := h.inside hl hr
  rw [heq]
  exact hp k' hl' hr'

theorem Rearranged.multiset (h : Rearranged l r s t) :
    (Finset.Icc l r).val.map t = (Finset.Icc l r).val.map s := by
  obtain ⟨e, hout, heq⟩ := h
  have hset : (Finset.Icc l r).map e.toEmbedding = Finset.Icc l r := by
    refine Finset.map_perm fun k hk => ?_
    rw [Finset.mem_coe, Finset.mem_Icc]
    by_contra hnot
    exact hk (hout k (by omega))
  have hmap : (Finset.Icc l r).val.map t = ((Finset.Icc l r).map e.toEmbedding).val.map s := by
    rw [Finset.map_val, Multiset.map_map]
    exact Multiset.map_congr rfl fun k _ => heq k
  rw [hmap, hset]

/-- An element is moved into the hole at `p`, and leaves a hole at `q`. -/
theorem Rearranged.hole {p q : Int} (hp : l ≤ p ∧ p ≤ r) (hq : l ≤ q ∧ q ≤ r) (s : Int → α)
    (v : α) :
    Rearranged l r (Function.update s p v)
      (Function.update (Function.update s p (s q)) q v) := by
  refine ⟨Equiv.swap p q, fun k hk => Equiv.swap_apply_of_ne_of_ne (by omega) (by omega),
    fun k => ?_⟩
  by_cases hkq : k = q
  · rw [hkq, Function.update_self, Equiv.swap_apply_right, Function.update_self]
  · rw [Function.update_of_ne hkq]
    by_cases hkp : k = p
    · have hne : q ≠ p := fun h => hkq (hkp.trans h.symm)
      rw [hkp, Function.update_self, Equiv.swap_apply_left, Function.update_of_ne hne]
    · rw [Function.update_of_ne hkp, Equiv.swap_apply_of_ne_of_ne hkp hkq,
        Function.update_of_ne hkp]

end Rearranged

section Sorted

variable {α : Type*} [Preorder α] {l r p : Int} {s t u : Int → α}

def SortedOn (l r : Int) (s : Int → α) : Prop := ∀ x y, l ≤ x → x ≤ y → y ≤ r → s x ≤ s y

/-- `p` parts the range: nothing before it is above its element, nothing behind it below. -/
structure PartedAt (l r p : Int) (s : Int → α) : Prop where
  lower : l ≤ p
  upper : p ≤ r
  below : ∀ k, l ≤ k → k < p → s k ≤ s p
  above : ∀ k, p < k → k ≤ r → s p ≤ s k

theorem SortedOn.of_le (h : r ≤ l) : SortedOn l r s := by
  intro x y hx hxy hy
  obtain rfl : x = y := by omega
  exact le_rfl

/-- The two sides sorted, one after the other. -/
theorem SortedOn.join (hpart : PartedAt l r p s) (hleft : Rearranged l (p - 1) s t)
    (hright : Rearranged (p + 1) r t u) (hsort : SortedOn l (p - 1) t)
    (hsort' : SortedOn (p + 1) r u) : SortedOn l r u := by
  have hu (k : Int) (hk : k ≤ p) : u k = t k := hright.outside (.inl (by omega))
  have ht (k : Int) (hk : p ≤ k) : t k = s k := hleft.outside (.inr (by omega))
  have hup : u p = s p := (hu p le_rfl).trans (ht p le_rfl)
  have hbelow (k : Int) (h0 : l ≤ k) (h1 : k < p) : u k ≤ s p := by
    rw [hu k h1.le]
    exact hleft.forall (p := (· ≤ s p)) (fun k h0 h1 => hpart.below k h0 (by omega)) k h0 (by omega)
  have habove (k : Int) (h0 : p < k) (h1 : k ≤ r) : s p ≤ u k := by
    refine hright.forall (p := (s p ≤ ·)) (fun k h0 h1 => ?_) k (by omega) h1
    rw [ht k (by omega)]
    exact hpart.above k (by omega) h1
  intro x y hx hxy hy
  rcases lt_trichotomy x p with hxp | rfl | hxp
  · rcases lt_or_ge y p with hyp | hyp
    · rw [hu x hxp.le, hu y hyp.le]
      exact hsort x y hx hxy (by omega)
    · rcases eq_or_lt_of_le hyp with rfl | hyp
      · rw [hup]
        exact hbelow x hx hxp
      · exact (hbelow x hx hxp).trans (habove y hyp hy)
  · rcases eq_or_lt_of_le hxy with rfl | hyp
    · exact le_rfl
    · rw [hup]
      exact habove y hyp hy
  · exact hsort' x y (by omega) hxy hy

end Sorted

end VendorAmlogic.Lib
