import VendorAmlogic.Lib.Run
import VendorAmlogic.Userdata.Reorder

/-!
# Counts at and above the sentinel

`aml_h264_get_min_poc` starts from `INVALID_POC`, which is a count a block may
have. A block above it is never the least one: the list cannot be emptied. A
full list with no block below it lets nothing go and grows.
-/

namespace VendorAmlogic.Userdata

open VendorAmlogic.Lib

/-- One block after the other; after a null pointer nothing happens any more. -/
def reorderStep (s : Option Reorder) (b : CcBlock) : Option Reorder × Unit :=
  (s.bind (reorderUserData · b), ())

/-- No null pointer was followed, and the list is within its bound. -/
def CacheSafe (s : Option Reorder) : Prop :=
  ∃ r, s = some r ∧ r.cache.length ≤ MAX_POC_CACHE + 1

/-- A block of count 0 finds no block above the sentinel, and another block that finds the list
full finds one below it there. -/
def BelowSentinel (s : Option Reorder) (b : CcBlock) : Prop :=
  ∀ r ∈ s,
    (b.poc = 0 → ∀ c ∈ r.cache, c.poc ≤ INVALID_POC) ∧
      (b.poc ≠ 0 → MAX_POC_CACHE < r.cache.length → ∃ c ∈ r.cache, c.poc < INVALID_POC)

/-! ## The block that leaves the list -/

/-- The first block of the count leaves the list, if there is one. -/
theorem userdataPush_cases (s : Reorder) (m : Int) :
    ((∀ b ∈ s.cache, m ≠ b.poc) ∧ userdataPush s m = none) ∨
      ∃ before b after, s.cache = before ++ b :: after ∧ m = b.poc ∧
        userdataPush s m = some ⟨before ++ after, s.written ++ [b]⟩ := by
  have hsplit := List.takeWhile_append_dropWhile (p := fun b : CcBlock => m ≠ b.poc) (l := s.cache)
  rw [userdataPush, List.span_eq_takeWhile_dropWhile]
  cases hd : s.cache.dropWhile (fun b => m ≠ b.poc) with
  | nil =>
    have hall := List.dropWhile_eq_nil_iff.1 hd
    exact .inl ⟨fun b hb => of_decide_eq_true (hall b hb), rfl⟩
  | cons b after =>
    have hb : m = b.poc := by
      have := List.head?_dropWhile_not (fun b : CcBlock => m ≠ b.poc) s.cache
      rw [hd] at this
      simpa using this
    rw [hd] at hsplit
    exact .inr ⟨_, b, after, hsplit.symm, hb, rfl⟩

theorem userdataPush_eq_none {s : Reorder} {m : Int} :
    userdataPush s m = none ↔ ∀ b ∈ s.cache, m ≠ b.poc := by
  obtain ⟨hall, h⟩ | ⟨before, b, after, hcache, hb, h⟩ := userdataPush_cases s m
  · exact iff_of_true h hall
  · refine iff_of_false (by simp [h]) fun hall => hall b ?_ hb
    simp [hcache]

/-- One block of the count is gone. -/
theorem userdataPush_perm {s s' : Reorder} {m : Int} (h : userdataPush s m = some s') :
    ∃ b, m = b.poc ∧ s.cache.Perm (b :: s'.cache) := by
  obtain ⟨-, h'⟩ | ⟨before, b, after, hcache, hb, h'⟩ := userdataPush_cases s m
  · rw [h'] at h
    exact nomatch h
  · rw [h'] at h
    obtain rfl := Option.some.inj h
    exact ⟨b, hb, hcache ▸ List.perm_middle⟩

theorem getMinPoc_ne_invalid {cache : List CcBlock} :
    getMinPoc cache ≠ INVALID_POC ↔ ∃ c ∈ cache, c.poc < INVALID_POC := by
  have hle := foldl_minPoc_le cache INVALID_POC
  constructor
  · intro hne
    obtain h | ⟨c, hc, h⟩ := foldl_minPoc_mem cache INVALID_POC
    · exact absurd h hne
    · exact ⟨c, hc, h ▸ lt_of_le_of_ne hle.1 hne⟩
  · rintro ⟨c, hc, hlt⟩
    exact ((hle.2 c hc).trans_lt hlt).ne

/-- The least count belongs to a block unless every block is above the sentinel. -/
theorem userdataPush_min {s : Reorder} :
    userdataPush s (getMinPoc s.cache) = none ↔ ∀ c ∈ s.cache, INVALID_POC < c.poc := by
  have hle := foldl_minPoc_le s.cache INVALID_POC
  rw [userdataPush_eq_none]
  constructor
  · intro hno
    obtain h | ⟨c, hc, h⟩ := foldl_minPoc_mem s.cache INVALID_POC
    · intro c hc
      have hge := hle.2 c hc
      rw [h] at hge
      exact lt_of_le_of_ne hge fun heq => hno c hc (h.trans heq)
    · exact absurd h (hno c hc)
  · intro hall c hc heq
    have hlt := hall c hc
    rw [← heq] at hlt
    exact absurd hle.1 (not_le.2 hlt)

/-- Emptying the list succeeds when no block of it is above the sentinel. -/
theorem pushAll_cases {fuel : Nat} {s : Reorder} (hf : s.cache.length = fuel) :
    ((∀ c ∈ s.cache, c.poc ≤ INVALID_POC) ∧ ∃ r, pushAll fuel s = some r ∧ r.cache = []) ∨
      ((∃ c ∈ s.cache, INVALID_POC < c.poc) ∧ pushAll fuel s = none) := by
  induction fuel generalizing s with
  | zero =>
    have hnil : s.cache = [] := List.length_eq_zero_iff.1 hf
    exact .inl ⟨by simp [hnil], s, by simp [pushAll, hnil], hnil⟩
  | succ fuel ih =>
    have hne : s.cache ≠ [] := by intro h0; simp [h0] at hf
    have hstep : pushAll (fuel + 1) s =
        (userdataPush s (getMinPoc s.cache)).bind (pushAll fuel) := by simp [pushAll, hne]
    cases hp : userdataPush s (getMinPoc s.cache) with
    | none =>
      obtain ⟨c, hc⟩ := List.exists_mem_of_ne_nil _ hne
      exact .inr ⟨⟨c, hc, userdataPush_min.1 hp c hc⟩, by rw [hstep, hp]; rfl⟩
    | some s' =>
      obtain ⟨b, hb, hperm⟩ := userdataPush_perm hp
      have hbound : b.poc ≤ INVALID_POC := hb ▸ (foldl_minPoc_le s.cache INVALID_POC).1
      have hlen : s'.cache.length = fuel := by
        have := hperm.length_eq
        simp only [List.length_cons] at this
        omega
      rw [hstep, hp, Option.bind_some]
      obtain ⟨hall, hr⟩ | ⟨⟨c, hc, hlt⟩, hr⟩ := ih hlen
      · refine .inl ⟨fun c hc => ?_, hr⟩
        rcases List.mem_cons.1 (hperm.mem_iff.1 hc) with rfl | hc
        · exact hbound
        · exact hall c hc
      · exact .inr ⟨⟨c, hperm.mem_iff.2 (List.mem_cons_of_mem _ hc), hlt⟩, hr⟩

/-! ## A block -/

theorem cacheSafe_some {r : Reorder} :
    CacheSafe (some r) ↔ r.cache.length ≤ MAX_POC_CACHE + 1 :=
  ⟨fun ⟨_, h, hlen⟩ => Option.some.inj h ▸ hlen, fun h => ⟨r, rfl, h⟩⟩

theorem not_cacheSafe_none : ¬ CacheSafe none := fun ⟨_, h, _⟩ => nomatch h

theorem reorderUserData_flush {r : Reorder} {b : CcBlock} (hb : b.poc = 0) :
    CacheSafe (reorderUserData r b) ↔ ∀ c ∈ r.cache, c.poc ≤ INVALID_POC := by
  by_cases hnil : r.cache = []
  · simp [reorderUserData, hb, hnil, userdataAdd, cacheSafe_some]
  · rw [reorderUserData, if_pos hb, if_neg hnil]
    obtain ⟨hall, r', hr', hempty⟩ | ⟨⟨c, hc, hlt⟩, hr'⟩ := pushAll_cases (s := r) rfl
    · rw [hr', Option.map_some]
      exact iff_of_true (cacheSafe_some.2 (by simp [userdataAdd, hempty])) hall
    · rw [hr', Option.map_none]
      exact iff_of_false not_cacheSafe_none fun hall => absurd (hall c hc) (not_le.2 hlt)

theorem reorderUserData_other {r : Reorder} {b : CcBlock}
    (hr : r.cache.length ≤ MAX_POC_CACHE + 1) (hb : b.poc ≠ 0) :
    CacheSafe (reorderUserData r b) ↔
      (MAX_POC_CACHE < r.cache.length → ∃ c ∈ r.cache, c.poc < INVALID_POC) := by
  rw [reorderUserData, if_neg hb]
  by_cases hfull : MAX_POC_CACHE < r.cache.length
  · rw [if_pos hfull, ← getMinPoc_ne_invalid]
    by_cases hmin : getMinPoc r.cache = INVALID_POC
    · -- nothing leaves the full list
      simp only [hmin, ne_eq, not_true_eq_false, if_false]
      refine iff_of_false ?_ fun h => h hfull
      rw [cacheSafe_some]
      simp only [userdataAdd, List.length_append, List.length_singleton]
      omega
    · simp only [ne_eq, hmin, not_false_eq_true, if_true]
      cases hp : userdataPush r (getMinPoc r.cache) with
      | none =>
        obtain ⟨c, hc, hlt⟩ := getMinPoc_ne_invalid.1 hmin
        exact absurd (userdataPush_min.1 hp c hc) (not_lt.2 hlt.le)
      | some r' =>
        obtain ⟨a, -, hperm⟩ := userdataPush_perm hp
        have hlen := hperm.length_eq
        simp only [List.length_cons] at hlen
        refine iff_of_true (cacheSafe_some.2 ?_) fun _ => trivial
        simp only [userdataAdd, List.length_append, List.length_singleton]
        omega
  · rw [if_neg hfull, cacheSafe_some]
    refine iff_of_true ?_ fun h => absurd h hfull
    simp only [userdataAdd, List.length_append, List.length_singleton]
    omega

/-- A step keeps the list safe when its block and the list are as required. -/
theorem reorderStep_iff {s : Option Reorder} {b : CcBlock} (hs : CacheSafe s) :
    CacheSafe (reorderStep s b).1 ↔ BelowSentinel s b := by
  obtain ⟨r, rfl, hlen⟩ := hs
  simp only [reorderStep, Option.bind_some, BelowSentinel, Option.mem_def, Option.some.injEq,
    forall_eq']
  by_cases hb : b.poc = 0
  · simp [reorderUserData_flush hb, hb]
  · simp [reorderUserData_other hlen hb, hb]

/-! ## A stream -/

/-- **The caption list is safe in exactly the runs in which every flush finds no count above the
sentinel and every full list holds one below it.** -/
theorem cacheSafe_iff (blocks : List CcBlock) :
    Always CacheSafe reorderStep (some {}) blocks ↔
      Each BelowSentinel reorderStep (some {}) blocks :=
  always_iff_each (fun _ _ (_ : True) hs => reorderStep_iff hs) (fun _ _ _ _ => trivial) trivial
    (cacheSafe_some.2 (Nat.zero_le _))

/-- A count above the sentinel, then a new group. -/
theorem cacheSafe_highCount :
    ¬ ∀ blocks : List CcBlock, Always CacheSafe reorderStep (some {}) blocks := by
  intro h
  have hrun := h [⟨0x10000000, [1]⟩, ⟨0, [2]⟩]
  exact not_cacheSafe_none hrun.2.2

end VendorAmlogic.Userdata
