import Mathlib.Tactic

/-!
# Words

The words of a list between separators; separators in a row count as one. What
is behind an element can only change the words from the one with that element
on.
-/

namespace VendorAmlogic.Lib

variable {α : Type} {p : α → Bool} {s t : List α} {c : α}

def words (p : α → Bool) (s : List α) : List (List α) := (s.splitOnP p).filter fun w => !w.isEmpty

@[simp] theorem words_nil (p : α → Bool) : words p [] = [] := by
  rw [words, List.splitOnP_nil]
  rfl

theorem words_append_sep (hc : p c = true) (s t : List α) :
    words p (s ++ c :: t) = words p s ++ words p t := by
  rw [words, List.splitOnP_append_cons _ _ hc, List.filter_append, words, words]

theorem words_sep (hc : p c = true) (s : List α) : words p (c :: s) = words p s := by
  have h := words_append_sep hc [] s
  rwa [words_nil, List.nil_append, List.nil_append] at h

/-- A word, and nothing else. -/
theorem words_single (h : ∀ x ∈ s, p x = false) (hne : s ≠ []) : words p s = [s] := by
  rw [words, List.splitOnP_eq_singleton h, List.filter_cons_of_pos]
  · rfl
  · rw [Bool.not_eq_true', List.isEmpty_eq_false_iff]
    exact hne

theorem words_seps (h : ∀ x ∈ s, p x = true) (t : List α) : words p (s ++ t) = words p t := by
  induction s with
  | nil => rfl
  | cons c s ih =>
    rw [List.cons_append, words_sep (h c List.mem_cons_self)]
    exact ih fun x hx => h x (List.mem_cons_of_mem _ hx)

/-- The first word, with a separator behind it. -/
theorem words_cons (h : ∀ x ∈ s, p x = false) (hne : s ≠ []) (hc : p c = true) (t : List α) :
    words p (s ++ c :: t) = s :: words p t := by
  rw [words_append_sep hc, words_single h hne]
  rfl

/-- The separators, the first word and what is behind it. -/
theorem exists_split (p : α → Bool) (s : List α) :
    ∃ seps w rest, s = seps ++ (w ++ rest) ∧ (∀ x ∈ seps, p x = true) ∧ (∀ x ∈ w, p x = false) ∧
      (w = [] → rest = []) ∧ (∀ c ∈ rest.head?, p c = true) := by
  refine ⟨s.takeWhile p, (s.dropWhile p).takeWhile (!p ·), (s.dropWhile p).dropWhile (!p ·),
    ?_, ?_, ?_, ?_, ?_⟩
  · rw [List.takeWhile_append_dropWhile, List.takeWhile_append_dropWhile]
  · exact List.all_eq_true.mp List.all_takeWhile
  · intro x hx
    simpa using List.all_eq_true.mp List.all_takeWhile x hx
  · intro hnil
    cases hd : s.dropWhile p with
    | nil => rfl
    | cons c t =>
      have hc : p c = false := by
        have h := List.head?_dropWhile_not p s
        rw [hd] at h
        simpa using h
      rw [hd, List.takeWhile_cons_of_pos (by simpa using hc)] at hnil
      cases hnil
  · intro c hc
    have h := List.head?_dropWhile_not (!p ·) (s.dropWhile p)
    rw [hc] at h
    simpa using h

/-- The elements up to the first one that fails. -/
theorem exists_run (h : ∃ x ∈ s, p x = false) :
    ∃ a d rest, s = a ++ d :: rest ∧ (∀ x ∈ a, p x = true) ∧ p d = false ∧ s.takeWhile p = a := by
  refine ⟨s.takeWhile p, ?_⟩
  cases hd : s.dropWhile p with
  | nil =>
    obtain ⟨x, hx, hfail⟩ := h
    have hall : s.takeWhile p = s := by
      have := List.takeWhile_append_dropWhile (p := p) (l := s)
      rwa [hd, List.append_nil] at this
    rw [← hall] at hx
    rw [List.all_eq_true.mp List.all_takeWhile x hx] at hfail
    cases hfail
  | cons d rest =>
    have hfail := List.head?_dropWhile_not p s
    rw [hd] at hfail
    refine ⟨d, rest, ?_, List.all_eq_true.mp List.all_takeWhile, by simpa using hfail, rfl⟩
    rw [← hd, List.takeWhile_append_dropWhile]

/-- The words have no other elements. -/
theorem mem_of_mem_words {w : List α} {x : α} (hw : w ∈ words p s) (hx : x ∈ w) : x ∈ s := by
  induction hn : s.length using Nat.strong_induction_on generalizing s with
  | _ n ih =>
    obtain ⟨seps, v, rest, rfl, hseps, hv, hnil, hrest⟩ := exists_split p s
    rw [words_seps hseps] at hw
    by_cases hne : v = []
    · rw [hne, hnil hne, List.nil_append, words_nil] at hw
      cases hw
    cases rest with
    | nil =>
      rw [List.append_nil, words_single hv hne, List.mem_singleton] at hw
      rw [hw] at hx
      simp [hx]
    | cons c t =>
      rw [words_cons hv hne (hrest c rfl)] at hw
      rcases List.mem_cons.mp hw with rfl | hw
      · simp [hx]
      · have hmem := ih t.length (by rw [← hn]; simp; omega) hw rfl
        simp [hmem]

/-- The word with an element that is no separator, and those before it. -/
theorem words_append (hc : p c = false) (s t : List α) :
    ∃ front v back, words p (s ++ c :: t) = front ++ v :: back ∧ c ∈ v ∧ front <+: words p s := by
  induction hn : s.length using Nat.strong_induction_on generalizing s with
  | _ n ih =>
    obtain ⟨seps, w, rest, rfl, hseps, hw, hnil, hrest⟩ := exists_split p s
    rw [words_seps hseps, List.append_assoc, words_seps hseps]
    cases rest with
    | nil =>
      -- the element is in the word that begins here
      rw [List.append_nil]
      have hv : ∀ x ∈ w ++ c :: t.takeWhile (!p ·), p x = false := by
        intro x hx
        rcases List.mem_append.mp hx with hx | hx
        · exact hw x hx
        rcases List.mem_cons.mp hx with rfl | hx
        · exact hc
        · simpa using List.all_eq_true.mp List.all_takeWhile x hx
      have hsplit : w ++ c :: t =
          (w ++ c :: t.takeWhile (!p ·)) ++ t.dropWhile (!p ·) := by
        rw [List.append_assoc, List.cons_append, List.takeWhile_append_dropWhile]
      have hmem : c ∈ w ++ c :: t.takeWhile (!p ·) := by simp
      have hne : w ++ c :: t.takeWhile (!p ·) ≠ [] := by simp
      refine ⟨[], w ++ c :: t.takeWhile (!p ·), ?_⟩
      rw [hsplit]
      cases hd : t.dropWhile (!p ·) with
      | nil =>
        rw [List.append_nil, words_single hv hne]
        exact ⟨[], rfl, hmem, List.nil_prefix⟩
      | cons d rest =>
        have h := List.head?_dropWhile_not (!p ·) t
        rw [hd] at h
        rw [words_cons hv hne (by simpa using h)]
        exact ⟨_, rfl, hmem, List.nil_prefix⟩
    | cons d rest =>
      have hne : w ≠ [] := fun h => by cases hnil h
      have hd := hrest d rfl
      obtain ⟨front, v, back, heq, hmem, hpre⟩ :=
        ih rest.length (by rw [← hn]; simp; omega) rest rfl
      refine ⟨w :: front, v, back, ?_, hmem, ?_⟩
      · rw [List.append_assoc, List.cons_append, words_cons hw hne hd, heq]
        rfl
      · rw [words_cons hw hne hd]
        exact (List.prefix_cons_inj w).mpr hpre

end VendorAmlogic.Lib
