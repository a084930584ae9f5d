import VendorAmlogic.Lib.Bytes
import VendorAmlogic.Lib.Rearrange

/-!
# The order of the PQ files

`quicksort` of `tool/bin_op.c`, by which the names of the PQ files are sorted
before they are packed. The rows are strings, and there are others before and
behind the range, for a row is compared before its index is. `none` is that the
fuel of a loop or of the recursion has run out.
-/

namespace VendorAmlogic.Fbc.QuickSort

open VendorAmlogic.Lib

/-! ## Model -/

/-- A string in a row of 256 bytes. -/
structure Name where
  text : List Byte
  ne_zero : ∀ c ∈ text, c ≠ 0
  length_lt : text.length < 256

/-- `strcmp`: the difference of the first two bytes that differ. -/
def strcmp : List Byte → List Byte → Int
  | [], [] => 0
  | [], b :: _ => -(b.toNat : Int)
  | a :: _, [] => a.toNat
  | a :: as, b :: bs => if a = b then strcmp as bs else (a.toNat : Int) - b.toNat

abbrev Rows := Int → Name

/-- `while (strcmp(s[j], tmp_buf) >= 0 && j >= p) j--`. -/
def downLoop (s : Rows) (tmp : Name) (p j : Int) : Int :=
  if strcmp (s j).text tmp.text ≥ 0 ∧ j ≥ p then downLoop s tmp p (j - 1) else j
termination_by (j + 1 - p).toNat

/-- `while (strcmp(s[i], tmp_buf) <= 0 && i <= p) i++`. -/
def upLoop (s : Rows) (tmp : Name) (p i : Int) : Int :=
  if strcmp (s i).text tmp.text ≤ 0 ∧ i ≤ p then upLoop s tmp p (i + 1) else i
termination_by (p + 1 - i).toNat

structure Partition where
  s : Rows
  i : Int
  j : Int
  p : Int

/-- The body of the loop. -/
def Partition.round (tmp : Name) (st : Partition) : Partition :=
  let j := downLoop st.s tmp st.p st.j
  let s := if j ≥ st.p then Function.update st.s st.p (st.s j) else st.s
  let p := if j ≥ st.p then j else st.p
  let i := upLoop s tmp p st.i
  { s := if i ≤ p then Function.update s p (s i) else s
    i := i
    j := j
    p := if i ≤ p then i else p }

def partitionLoop (tmp : Name) : Nat → Partition → Option Partition
  | 0, _ => none
  | fuel + 1, st => if st.i < st.j then partitionLoop tmp fuel (st.round tmp) else some st

def quicksort : Nat → Rows → Int → Int → Option Rows
  | 0, _, _, _ => none
  | fuel + 1, s, left, right => do
    let tmpBuf := s left
    let st ← partitionLoop tmpBuf (fuel + 1) ⟨s, left, right, left⟩
    let s := Function.update st.s st.p tmpBuf
    let s ← (if st.p - left > 1 then quicksort fuel s left (st.p - 1) else some s)
    if right - st.p > 1 then quicksort fuel s (st.p + 1) right else some s

/-! ## The order of names -/

namespace Name

def key (n : Name) : List Nat := n.text.map BitVec.toNat

theorem key_injective : Function.Injective key := by
  intro a b h
  have htext : a.text = b.text :=
    List.map_injective_iff.mpr (fun x y hxy => BitVec.eq_of_toNat_eq hxy) h
  cases a
  cases b
  cases htext
  rfl

instance : LinearOrder Name :=
  LinearOrder.lift' key key_injective

theorem lt_iff (a b : Name) : a < b ↔ a.key < b.key := Iff.rfl

end Name

/-- Without zero bytes, `strcmp` compares as words of a lexicon are. -/
theorem strcmp_sign {a b : List Byte} (ha : ∀ c ∈ a, c ≠ 0) (hb : ∀ c ∈ b, c ≠ 0) :
    (strcmp a b < 0 ↔ a.map BitVec.toNat < b.map BitVec.toNat) ∧
      (0 < strcmp a b ↔ b.map BitVec.toNat < a.map BitVec.toNat) := by
  have hpos (c : Byte) (hc : c ≠ 0) : 0 < c.toNat :=
    Nat.pos_of_ne_zero fun h => hc (BitVec.eq_of_toNat_eq h)
  induction a generalizing b with
  | nil =>
    cases b with
    | nil =>
      exact ⟨iff_of_false (lt_irrefl _) (lt_irrefl _), iff_of_false (lt_irrefl _) (lt_irrefl _)⟩
    | cons y b =>
      have hy := hpos y (hb y List.mem_cons_self)
      rw [strcmp]
      exact ⟨iff_of_true (by omega) (List.nil_lt_cons _ _),
        iff_of_false (by omega) (List.not_lt_nil _)⟩
  | cons x a ih =>
    cases b with
    | nil =>
      have hx := hpos x (ha x List.mem_cons_self)
      rw [strcmp]
      exact ⟨iff_of_false (by omega) (List.not_lt_nil _),
        iff_of_true (by omega) (List.nil_lt_cons _ _)⟩
    | cons y b =>
      have hrest := ih (b := b) (fun c hc => ha c (List.mem_cons_of_mem _ hc))
        (fun c hc => hb c (List.mem_cons_of_mem _ hc))
      rw [strcmp, List.map_cons, List.map_cons, List.cons_lt_cons_iff, List.cons_lt_cons_iff]
      by_cases hxy : x = y
      · subst hxy
        rw [if_pos rfl]
        simpa using hrest
      · have hne : x.toNat ≠ y.toNat := fun h => hxy (BitVec.eq_of_toNat_eq h)
        rw [if_neg hxy]
        constructor <;> omega

theorem strcmp_nonpos_iff (a b : Name) : strcmp a.text b.text ≤ 0 ↔ a ≤ b := by
  rw [← not_lt, ← not_lt, Name.lt_iff]
  exact not_congr (strcmp_sign a.ne_zero b.ne_zero).2

theorem strcmp_nonneg_iff (a b : Name) : strcmp a.text b.text ≥ 0 ↔ b ≤ a := by
  rw [ge_iff_le, ← not_lt, ← not_lt, Name.lt_iff]
  exact not_congr (strcmp_sign a.ne_zero b.ne_zero).1

/-! ## The inner loops -/

section Loops

variable {p i j : Int}

theorem downLoop_spec (s : Rows) (tmp : Name) (h : p ≤ j + 1) :
    p ≤ downLoop s tmp p j + 1 ∧ downLoop s tmp p j ≤ j ∧
      (∀ k, downLoop s tmp p j < k → k ≤ j → tmp ≤ s k) ∧
      (p ≤ downLoop s tmp p j → s (downLoop s tmp p j) < tmp) := by
  induction j using downLoop.induct s tmp p with
  | case1 j hgo ih =>
    obtain ⟨hlow, hup, hall, hstop⟩ := ih (by omega)
    rw [downLoop, if_pos hgo]
    refine ⟨hlow, by omega, fun k hk hkj => ?_, hstop⟩
    by_cases hlast : k = j
    · rw [hlast]
      exact (strcmp_nonneg_iff _ _).mp hgo.1
    · exact hall k hk (by omega)
  | case2 j hgo =>
    rw [downLoop, if_neg hgo]
    refine ⟨h, le_rfl, fun k hk hkj => by omega, fun hp => ?_⟩
    rw [strcmp_nonneg_iff] at hgo
    exact not_le.mp fun hle => hgo ⟨hle, hp⟩

theorem upLoop_spec (s : Rows) (tmp : Name) (h : i ≤ p + 1) :
    i ≤ upLoop s tmp p i ∧ upLoop s tmp p i ≤ p + 1 ∧
      (∀ k, i ≤ k → k < upLoop s tmp p i → s k ≤ tmp) ∧
      (upLoop s tmp p i ≤ p → tmp < s (upLoop s tmp p i)) := by
  induction i using upLoop.induct s tmp p with
  | case1 i hgo ih =>
    obtain ⟨hlow, hup, hall, hstop⟩ := ih (by omega)
    rw [upLoop, if_pos hgo]
    refine ⟨by omega, hup, fun k hk hkj => ?_, hstop⟩
    by_cases hfirst : k = i
    · rw [hfirst]
      exact (strcmp_nonpos_iff _ _).mp hgo.1
    · exact hall k (by omega) hkj
  | case2 i hgo =>
    rw [upLoop, if_neg hgo]
    refine ⟨le_rfl, h, fun k hk hkj => by omega, fun hp => ?_⟩
    rw [strcmp_nonpos_iff] at hgo
    exact not_le.mp fun hle => hgo ⟨hle, hp⟩

end Loops

/-! ## The partition -/

/-- At the head of the loop: the hole is at `i`, and the row that still stands there is not below
`tmp`. -/
structure Running (s : Rows) (left right : Int) (tmp : Name) (st : Partition) : Prop where
  moved : Rearranged left right s (Function.update st.s st.p tmp)
  hole : st.p = st.i
  lower : left ≤ st.i
  upper : st.j ≤ right
  lt : st.i < st.j
  big : tmp ≤ st.s st.p
  below : ∀ k, left ≤ k → k < st.i → st.s k ≤ tmp
  above : ∀ k, st.j < k → k ≤ right → tmp ≤ st.s k

/-- Behind the loop: the hole parts the range. -/
structure Done (s : Rows) (left right : Int) (tmp : Name) (st : Partition) : Prop where
  moved : Rearranged left right s (Function.update st.s st.p tmp)
  stop : ¬ st.i < st.j
  lower : left ≤ st.p
  upper : st.p ≤ right
  below : ∀ k, left ≤ k → k < st.p → st.s k ≤ tmp
  above : ∀ k, st.p < k → k ≤ right → tmp ≤ st.s k

section Partition

variable {s : Rows} {left right : Int} {tmp : Name} {st : Partition}

/-- A round brings the indices nearer, or it is the last. -/
theorem Running.round (h : Running s left right tmp st) :
    Running s left right tmp (st.round tmp) ∧
        (st.round tmp).j - (st.round tmp).i < st.j - st.i ∨
      Done s left right tmp (st.round tmp) := by
  obtain ⟨s', i, j, p⟩ := st
  obtain ⟨hmoved, hhere, hlower, hupper, hlt, hbig, hbelow, habove⟩ := h
  dsimp only at *
  subst hhere
  obtain ⟨hd1, hd2, hdall, hdstop⟩ := downLoop_spec s' tmp (p := p) (j := j) (by omega)
  unfold Partition.round
  dsimp only
  generalize downLoop s' tmp p j = j' at *
  have hhigh (k : Int) (hk : j' < k) (hkr : k ≤ right) : tmp ≤ s' k := by
    by_cases hkj : k ≤ j
    · exact hdall k hk hkj
    · exact habove k (by omega) hkr
  by_cases hj : j' ≥ p
  · -- a smaller row goes into the hole, so the row at `i` is passed
    have hsmall : s' j' < tmp := hdstop hj
    have hne : j' ≠ p := by
      rintro rfl
      exact absurd hbig (not_le.mpr hsmall)
    rw [if_pos hj, if_pos hj]
    obtain ⟨hu1, hu2, huall, hustop⟩ :=
      upLoop_spec (Function.update s' p (s' j')) tmp (p := j') (i := p) (by omega)
    generalize upLoop (Function.update s' p (s' j')) tmp j' p = i' at *
    have hpass : i' ≠ p := by
      rintro rfl
      have hbad := hustop hj
      rw [Function.update_self] at hbad
      exact lt_asymm hbad hsmall
    have hhole : i' ≠ j' := by
      rintro rfl
      have hbad := hustop le_rfl
      rw [Function.update_of_ne hne] at hbad
      exact lt_asymm hbad hsmall
    have hmoved' : Rearranged left right s
        (Function.update (Function.update s' p (s' j')) j' tmp) :=
      hmoved.trans (.hole ⟨hlower, by omega⟩ ⟨by omega, by omega⟩ s' tmp)
    have hlow (k : Int) (hk : left ≤ k) (hki : k < i') : Function.update s' p (s' j') k ≤ tmp := by
      by_cases hkp : k < p
      · rw [Function.update_of_ne hkp.ne]
        exact hbelow k hk hkp
      · exact huall k (by omega) hki
    have hhigh' (k : Int) (hk : j' < k) (hkr : k ≤ right) :
        tmp ≤ Function.update s' p (s' j') k := by
      rw [Function.update_of_ne (by omega)]
      exact hhigh k hk hkr
    by_cases hi : i' ≤ j'
    · rw [if_pos hi, if_pos hi]
      refine .inl ⟨⟨?_, rfl, ?_, ?_, ?_, ?_, fun k hk hki => ?_, fun k hk hkr => ?_⟩, ?_⟩
      · exact hmoved'.trans (.hole ⟨by omega, by omega⟩ ⟨by omega, by omega⟩ _ tmp)
      · show left ≤ i'
        omega
      · show j' ≤ right
        omega
      · show i' < j'
        omega
      · dsimp only
        rw [Function.update_of_ne hhole]
        exact (hustop hi).le
      · dsimp only at hki ⊢
        rw [Function.update_of_ne (by omega)]
        exact hlow k hk hki
      · dsimp only at hk ⊢
        rw [Function.update_of_ne (by omega)]
        exact hhigh' k hk hkr
      · show j' - i' < j - p
        omega
    · rw [if_neg hi, if_neg hi]
      exact .inr ⟨hmoved', by dsimp only; omega, by dsimp only; omega, by dsimp only; omega,
        fun k hk hkp => hlow k hk (lt_trans hkp (not_le.mp hi)), hhigh'⟩
  · -- nothing behind the hole is smaller
    rw [if_neg hj, if_neg hj]
    obtain ⟨hu1, hu2, -, -⟩ := upLoop_spec s' tmp (p := p) (i := p) (by omega)
    generalize upLoop s' tmp p p = i' at *
    have hsame : (if i' ≤ p then Function.update s' p (s' i') else s') = s' := by
      split
      · obtain rfl : i' = p := by omega
        exact Function.update_eq_self i' s'
      · rfl
    have hp : (if i' ≤ p then i' else p) = p := by
      split <;> omega
    rw [hsame, hp]
    exact .inr ⟨hmoved, by dsimp only; omega, hlower, by dsimp only; omega, hbelow,
      fun k hk hkr => hhigh k (by dsimp only at hk; omega) hkr⟩

theorem Done.partitionLoop (h : Done s left right tmp st) (fuel : Nat) :
    partitionLoop tmp (fuel + 1) st = some st := by
  rw [QuickSort.partitionLoop, if_neg h.stop]

theorem Running.partitionLoop {fuel : Nat} (h : Running s left right tmp st)
    (hfuel : (st.j - st.i).toNat < fuel) :
    ∃ st', partitionLoop tmp fuel st = some st' ∧ Done s left right tmp st' := by
  induction fuel generalizing st with
  | zero => exact absurd hfuel (Nat.not_lt_zero _)
  | succ fuel ih =>
    have hlt := h.lt
    rw [QuickSort.partitionLoop, if_pos hlt]
    rcases h.round with ⟨hnext, hless⟩ | hdone
    · exact ih hnext (by omega)
    · obtain ⟨fuel, rfl⟩ : ∃ n, fuel = n + 1 := ⟨fuel - 1, by omega⟩
      exact ⟨_, hdone.partitionLoop fuel, hdone⟩

theorem partition_spec {fuel : Nat} (h : left ≤ right) (hfuel : (right - left).toNat < fuel) :
    ∃ st, partitionLoop (s left) fuel ⟨s, left, right, left⟩ = some st ∧
      Done s left right (s left) st := by
  have hself : Function.update s left (s left) = s := Function.update_eq_self left s
  have hmoved : Rearranged left right s (Function.update s left (s left)) := by
    rw [hself]
    exact .refl left right s
  by_cases hlt : left < right
  · refine Running.partitionLoop ?_ hfuel
    exact ⟨hmoved, rfl, le_rfl, le_rfl, hlt, le_rfl, fun k hk hki => absurd hk (not_le.mpr hki),
      fun k hk hkr => absurd hkr (not_le.mpr hk)⟩
  · obtain ⟨fuel, rfl⟩ : ∃ n, fuel = n + 1 := ⟨fuel - 1, by omega⟩
    have hdone : Done s left right (s left) ⟨s, left, right, left⟩ :=
      ⟨hmoved, hlt, le_rfl, h, fun k hk hki => absurd hk (not_le.mpr hki),
        fun k hk hkr => by dsimp only at hk; omega⟩
    exact ⟨_, hdone.partitionLoop fuel, hdone⟩

theorem Done.parted (h : Done s left right tmp st) :
    PartedAt left right st.p (Function.update st.s st.p tmp) where
  lower := h.lower
  upper := h.upper
  below k hk hkp := by
    rw [Function.update_self, Function.update_of_ne hkp.ne]
    exact h.below k hk hkp
  above k hkp hk := by
    rw [Function.update_self, Function.update_of_ne hkp.ne']
    exact h.above k hkp hk

end Partition

/-! ## The sort -/

/-- The range has its former rows in ascending order, and all others stand where they were. -/
structure Sorts (left right : Int) (s s' : Rows) : Prop where
  perm : (Finset.Icc left right).val.map s' = (Finset.Icc left right).val.map s
  rest : ∀ k, k < left ∨ right < k → s' k = s k
  ascending : ∀ x y, left ≤ x → x ≤ y → y ≤ right → strcmp (s' x).text (s' y).text ≤ 0

section Ranges

variable {left right : Int}

theorem quicksort_spec {fuel : Nat} (s : Rows) (h : left ≤ right)
    (hfuel : (right - left).toNat < fuel) :
    ∃ s', quicksort fuel s left right = some s' ∧ Rearranged left right s s' ∧
      SortedOn left right s' := by
  induction fuel generalizing s left right with
  | zero => exact absurd hfuel (Nat.not_lt_zero _)
  | succ fuel ih =>
    obtain ⟨st, hst, hdone⟩ := partition_spec (s := s) h hfuel
    have hpart := hdone.parted
    have hlower := hdone.lower
    have hupper := hdone.upper
    -- the calls for the two sides, or none where a side has one row or none
    have side (t : Rows) (l r : Int) (more : Prop) [Decidable more] (hmore : more ↔ l < r)
        (hlen : (r - l).toNat < fuel ∨ r ≤ l) :
        ∃ t', (if more then quicksort fuel t l r else some t) = some t' ∧
          Rearranged l r t t' ∧ SortedOn l r t' := by
      by_cases hlt : more
      · have hlr := hmore.mp hlt
        rw [if_pos hlt]
        exact ih t hlr.le (by omega)
      · rw [if_neg hlt]
        rw [hmore] at hlt
        exact ⟨t, rfl, .refl l r t, .of_le (by omega)⟩
    obtain ⟨t, ht, hleft, hsort⟩ := side (Function.update st.s st.p (s left)) left (st.p - 1)
      (st.p - left > 1) (by omega) (by omega)
    obtain ⟨u, hu, hright, hsort'⟩ := side t (st.p + 1) right (right - st.p > 1)
      (by omega) (by omega)
    refine ⟨u, ?_, ?_, .join hpart hleft hright hsort hsort'⟩
    · rw [quicksort, hst]
      show (if st.p - left > 1 then _ else _) >>= _ = some u
      rw [ht]
      exact hu
    · have hmoved := hdone.moved.trans (hleft.mono le_rfl (by omega))
      exact hmoved.trans (hright.mono (by omega) le_rfl)

/-- **The sort**, of any rows with any others around them. -/
theorem quicksort_sorts (s : Rows) (h : left ≤ right) (fuel : Nat)
    (hfuel : (right - left).toNat < fuel) :
    ∃ s', quicksort fuel s left right = some s' ∧ Sorts left right s s' := by
  obtain ⟨s', hrun, hmoved, hsort⟩ := quicksort_spec s h hfuel
  refine ⟨s', hrun, hmoved.multiset, fun k hk => hmoved.outside hk, fun x y hx hxy hy => ?_⟩
  exact (strcmp_nonpos_iff _ _).mpr (hsort x y hx hxy hy)

end Ranges

/-- Rows of one letter, each of two in turn. -/
def letters (k : Int) : Name where
  text := [if k % 2 = 0 then 0x62 else 0x61]
  ne_zero c hc := by
    rw [List.mem_singleton.mp hc]
    split <;> decide
  length_lt := Nat.one_lt_ofNat

/-- Five rows among others, with equal names. -/
theorem quicksort_sorts_letters :
    ∃ s', quicksort 5 letters 0 4 = some s' ∧ Sorts 0 4 letters s' :=
  quicksort_sorts letters (by decide) 5 (by decide)

end VendorAmlogic.Fbc.QuickSort
