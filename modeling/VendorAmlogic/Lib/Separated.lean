import Mathlib.Tactic

/-!
# Substrings of separated fields

Where a string can be in fields that are joined by a separator. One that has no
separator is within a field; one that ends with its only separator is at the end
of a field that is not the last.
-/

namespace VendorAmlogic.Lib

section
variable {α : Type*} {c : α} {p x a b : List α}

/-- A string without the separator cannot go beyond it. -/
theorem prefix_append_sep (hp : c ∉ p) : p <+: a ++ c :: b ↔ p <+: a := by
  induction a generalizing p with
  | nil =>
    cases p with
    | nil => simp
    | cons y p =>
      simp only [List.mem_cons, not_or] at hp
      simp [List.cons_prefix_cons, Ne.symm hp.1]
  | cons z a ih =>
    cases p with
    | nil => simp
    | cons y p =>
      simp only [List.mem_cons, not_or] at hp
      rw [List.cons_append, List.cons_prefix_cons, List.cons_prefix_cons, ih hp.2]

theorem infix_append_sep (h0 : p ≠ []) (hp : c ∉ p) :
    p <:+: a ++ c :: b ↔ p <:+: a ∨ p <:+: b := by
  induction a with
  | nil =>
    have hhead : ¬ p <+: c :: b := by
      rw [← List.nil_append (c :: b), prefix_append_sep hp, List.prefix_nil]
      exact h0
    rw [List.nil_append, List.infix_cons_iff, List.infix_nil]
    tauto
  | cons z a ih =>
    rw [List.cons_append, List.infix_cons_iff, ← List.cons_append, prefix_append_sep hp, ih,
      List.infix_cons_iff, or_assoc]

/-- A string without the separator is within a field. -/
theorem infix_intercalate (h0 : p ≠ []) (hp : c ∉ p) (fields : List (List α)) :
    p <:+: [c].intercalate fields ↔ ∃ f ∈ fields, p <:+: f := by
  induction fields with
  | nil => simpa using h0
  | cons f fields ih =>
    cases fields with
    | nil => simp
    | cons g fields =>
      rw [List.intercalate_cons_cons, List.append_assoc, List.singleton_append,
        infix_append_sep h0 hp, ih, List.exists_mem_cons_iff _ f]

theorem snoc_prefix_append_sep (hx : c ∉ x) (ha : c ∉ a) : x ++ [c] <+: a ++ c :: b ↔ x = a := by
  induction a generalizing x with
  | nil =>
    cases x with
    | nil => simp
    | cons y x =>
      simp only [List.mem_cons, not_or] at hx
      simp [List.cons_prefix_cons, Ne.symm hx.1]
  | cons z a ih =>
    cases x with
    | nil =>
      simp only [List.mem_cons, not_or] at ha
      simp [List.cons_prefix_cons, ha.1]
    | cons y x =>
      simp only [List.mem_cons, not_or] at hx ha
      rw [List.cons_append, List.cons_append, List.cons_prefix_cons, ih hx.2 ha.2, List.cons.injEq]

theorem snoc_infix_append_sep (hx : c ∉ x) (ha : c ∉ a) :
    x ++ [c] <:+: a ++ c :: b ↔ x <:+ a ∨ x ++ [c] <:+: b := by
  induction a with
  | nil =>
    rw [List.nil_append, List.infix_cons_iff, ← List.nil_append (c :: b),
      snoc_prefix_append_sep hx ha, List.suffix_nil]
  | cons z a ih =>
    rw [List.cons_append, List.infix_cons_iff, ← List.cons_append, snoc_prefix_append_sep hx ha,
      ih fun hmem => ha (List.mem_cons_of_mem z hmem), List.suffix_cons_iff, or_assoc]

/-- A string with its separator is at the end of a field that is not the last. -/
theorem snoc_infix_intercalate (hx : c ∉ x) {fields : List (List α)} (hf : ∀ f ∈ fields, c ∉ f) :
    x ++ [c] <:+: [c].intercalate fields ↔ ∃ f ∈ fields.dropLast, x <:+ f := by
  induction fields with
  | nil => simp
  | cons f fields ih =>
    cases fields with
    | nil =>
      have hnot : ¬ x ++ [c] <:+: f := fun h =>
        hf f List.mem_cons_self (h.subset (List.mem_append_right x List.mem_cons_self))
      simpa using hnot
    | cons g fields =>
      rw [List.intercalate_cons_cons, List.append_assoc, List.singleton_append,
        snoc_infix_append_sep hx (hf f List.mem_cons_self),
        ih fun f' hf' => hf f' (List.mem_cons_of_mem f hf'), List.dropLast_cons_cons,
        List.exists_mem_cons_iff _ f]

end

end VendorAmlogic.Lib
