import Mathlib.Tactic

/-!
# Sorting through a window

`SortedBy key xs out` says that `out` is the stable sort of `xs` by `key`.
`Window key xs out cache` is the state of a sort that has put out `out` and
still holds `cache`: what is out comes before whatever is held. A step takes
the first element of least key from the cache, or adds an arriving one.
-/

namespace VendorAmlogic.Lib

variable {α κ : Type*} [LinearOrder κ] {key : α → κ}

/-- `out` has the elements of `xs` by increasing key, those of one key as they stand in `xs`. -/
structure SortedBy (key : α → κ) (xs out : List α) : Prop where
  perm : out.Perm xs
  sorted : out.Pairwise (fun a b => key a ≤ key b)
  stable : ∀ k, out.filter (fun a => key a = k) = xs.filter (fun a => key a = k)

/-- Of `xs`, the elements `out` have left in order and `cache` is still held. -/
structure Window (key : α → κ) (xs out cache : List α) : Prop where
  perm : (out ++ cache).Perm xs
  sorted : out.Pairwise (fun a b => key a ≤ key b)
  below : ∀ a ∈ out, ∀ b ∈ cache, key a ≤ key b
  stable : ∀ k, (out ++ cache).filter (fun a => key a = k) = xs.filter (fun a => key a = k)

/-- The first element of least key. -/
structure Least (key : α → κ) (before : List α) (a : α) (after : List α) : Prop where
  first : ∀ b ∈ before, key b ≠ key a
  least : ∀ b ∈ before ++ a :: after, key a ≤ key b

theorem Window.init (key : α → κ) (xs : List α) : Window key xs [] xs where
  perm := .refl _
  sorted := .nil
  below := fun _ h => absurd h List.not_mem_nil
  stable := fun _ => rfl

/-- A window that holds nothing has sorted. -/
theorem Window.sortedBy {xs out : List α} (h : Window key xs out []) : SortedBy key xs out where
  perm := by simpa using h.perm
  sorted := h.sorted
  stable := fun k => by simpa using h.stable k

/-- A sorted rest completes what is out. -/
theorem Window.append {xs out cache rest : List α} (h : Window key xs out cache)
    (hr : SortedBy key cache rest) : SortedBy key xs (out ++ rest) where
  perm := (hr.perm.append_left out).trans h.perm
  sorted := by
    refine List.pairwise_append.2 ⟨h.sorted, hr.sorted, fun a ha b hb => ?_⟩
    exact h.below a ha b (hr.perm.mem_iff.1 hb)
  stable := fun k => by
    rw [List.filter_append, hr.stable k, ← List.filter_append, h.stable k]

/-- Moving an element past elements of other keys leaves every key's elements as they were. -/
theorem Least.filter_eq {before after : List α} {a : α} (h : Least key before a after) (k : κ) :
    (a :: (before ++ after)).filter (fun b => key b = k) =
      (before ++ a :: after).filter (fun b => key b = k) := by
  by_cases hk : key a = k
  · have hb : before.filter (fun b => key b = k) = [] := by
      refine List.filter_eq_nil_iff.2 fun b hb => ?_
      simpa [← hk] using h.first b hb
    simp [List.filter_append, hb, hk]
  · simp [List.filter_append, hk]

/-- Taking the least element keeps the window. -/
theorem Window.take {xs out before after : List α} {a : α}
    (h : Window key xs out (before ++ a :: after)) (hl : Least key before a after) :
    Window key xs (out ++ [a]) (before ++ after) where
  perm := by
    refine List.Perm.trans ?_ h.perm
    rw [List.append_assoc, List.singleton_append]
    exact (List.perm_middle.symm).append_left out
  sorted := by
    refine List.pairwise_append.2 ⟨h.sorted, List.pairwise_singleton _ _, fun b hb c hc => ?_⟩
    obtain rfl := List.mem_singleton.1 hc
    exact h.below b hb c (by simp)
  below := by
    intro b hb c hc
    have hc' : c ∈ before ++ a :: after := by
      rcases List.mem_append.1 hc with hc | hc
      · exact List.mem_append_left _ hc
      · exact List.mem_append_right _ (List.mem_cons_of_mem _ hc)
    rcases List.mem_append.1 hb with hb | hb
    · exact h.below b hb c hc'
    · obtain rfl := List.mem_singleton.1 hb
      exact hl.least c hc'
  stable := fun k => by
    rw [List.append_assoc, List.filter_append]
    exact (congrArg _ (hl.filter_eq k)).trans ((List.filter_append ..).symm.trans (h.stable k))

/-- An element not below what is out may still arrive. -/
theorem Window.arrive {xs out cache : List α} {a : α} (h : Window key xs out cache)
    (ha : ∀ b ∈ out, key b ≤ key a) : Window key (xs ++ [a]) out (cache ++ [a]) where
  perm := by
    rw [← List.append_assoc]
    exact h.perm.append_right [a]
  sorted := h.sorted
  below := by
    intro b hb c hc
    rcases List.mem_append.1 hc with hc | hc
    · exact h.below b hb c hc
    · obtain rfl := List.mem_singleton.1 hc
      exact ha b hb
  stable := fun k => by
    rw [← List.append_assoc, List.filter_append, h.stable k, List.filter_append]

end VendorAmlogic.Lib
