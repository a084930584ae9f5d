import Mathlib.Tactic

/-!
# Masked comparison filters

A filter compares words `x i` at positions `i` with a value. The bits of `pos`
must all be equal; if there are bits in `neg`, at least one of them must
differ. The two masks are disjoint, so every masked bit matters
(`essential_iff`), and filters that accept the same words mask the same bits
(`masked_eq_of_agree`). `dependsOnly_iff` says when some of the words decide.
-/

namespace VendorAmlogic.Lib

variable {ι : Type*} {w : Nat}

structure MaskFilter (ι : Type*) (w : Nat) where
  value : ι → BitVec w
  pos : ι → BitVec w
  neg : ι → BitVec w
  disjoint : ∀ i, pos i &&& neg i = 0

namespace MaskFilter

def Accepts (f : MaskFilter ι w) (x : ι → BitVec w) : Prop :=
  (∀ i, (x i ^^^ f.value i) &&& f.pos i = 0) ∧
    ((∃ i, f.neg i ≠ 0) → ∃ i, (x i ^^^ f.value i) &&& f.neg i ≠ 0)

/-- The bits a filter looks at. -/
def masked (f : MaskFilter ι w) (i : ι) : BitVec w := f.pos i ||| f.neg i

/-! ## Bit by bit -/

theorem and_eq_zero_iff {x m : BitVec w} :
    x &&& m = 0 ↔ ∀ k, k < w → m.getLsbD k = true → x.getLsbD k = false := by
  constructor
  · intro h k hk hm
    have := congrArg (fun b => b.getLsbD k) h
    simpa [hm] using this
  · intro h
    apply BitVec.eq_of_getLsbD_eq
    intro k hk
    cases hm : m.getLsbD k with
    | false => simp [hm]
    | true => simp [hm, h k hk hm]

theorem ne_zero_iff {m : BitVec w} : m ≠ 0 ↔ ∃ k, k < w ∧ m.getLsbD k = true := by
  have h := and_eq_zero_iff (x := m) (m := m)
  rw [BitVec.and_self] at h
  rw [Ne, h]
  constructor
  · intro hn
    by_contra hc
    push Not at hc
    exact hn fun k hk hm => absurd hm (hc k hk)
  · rintro ⟨k, hk, hm⟩ hn
    exact absurd hm (by simp [hn k hk hm])

theorem accepts_iff (f : MaskFilter ι w) (x : ι → BitVec w) :
    f.Accepts x ↔
      (∀ i k, k < w → (f.pos i).getLsbD k = true → (x i).getLsbD k = (f.value i).getLsbD k) ∧
      ((∃ i k, k < w ∧ (f.neg i).getLsbD k = true) →
        ∃ i k, k < w ∧ (f.neg i).getLsbD k = true ∧ (x i).getLsbD k ≠ (f.value i).getLsbD k) := by
  have h1 : (∀ i, (x i ^^^ f.value i) &&& f.pos i = 0) ↔
      ∀ i k, k < w → (f.pos i).getLsbD k = true → (x i).getLsbD k = (f.value i).getLsbD k := by
    simp only [and_eq_zero_iff, BitVec.getLsbD_xor, bne_eq_false_iff_eq]
  have h2 : (∃ i, (x i ^^^ f.value i) &&& f.neg i ≠ 0) ↔
      ∃ i k, k < w ∧ (f.neg i).getLsbD k = true ∧ (x i).getLsbD k ≠ (f.value i).getLsbD k := by
    simp only [ne_eq, and_eq_zero_iff, BitVec.getLsbD_xor, bne_eq_false_iff_eq]
    push Not
    rfl
  rw [Accepts, h1, h2]
  simp only [ne_zero_iff]

theorem not_pos_of_neg (f : MaskFilter ι w) {i : ι} {k : Nat} (hk : k < w)
    (h : (f.neg i).getLsbD k = true) : (f.pos i).getLsbD k = false :=
  and_eq_zero_iff.mp (f.disjoint i) k hk h

theorem getLsbD_masked (f : MaskFilter ι w) (i : ι) (k : Nat) :
    (f.masked i).getLsbD k = ((f.pos i).getLsbD k || (f.neg i).getLsbD k) := by
  simp [masked]

/-- Bits outside the mask make no difference. -/
theorem accepts_congr (f : MaskFilter ι w) {x y : ι → BitVec w}
    (h : ∀ i k, k < w → (f.masked i).getLsbD k = true → (x i).getLsbD k = (y i).getLsbD k) :
    f.Accepts x ↔ f.Accepts y := by
  have hpos : ∀ i k, k < w → (f.pos i).getLsbD k = true → (x i).getLsbD k = (y i).getLsbD k :=
    fun i k hk hm => h i k hk (by simp [getLsbD_masked, hm])
  have hneg : ∀ i k, k < w → (f.neg i).getLsbD k = true → (x i).getLsbD k = (y i).getLsbD k :=
    fun i k hk hm => h i k hk (by simp [getLsbD_masked, hm])
  rw [accepts_iff, accepts_iff]
  refine and_congr ?_ (imp_congr_right fun _ => ?_)
  · exact forall₄_congr fun i k hk hm => by rw [hpos i k hk hm]
  · refine exists₂_congr fun i k => and_congr_right fun hk => and_congr_right fun hm => ?_
    rw [hneg i k hk hm]

theorem masked_eq_zero (f : MaskFilter ι w) {i : ι} :
    f.masked i = 0 ↔ f.pos i = 0 ∧ f.neg i = 0 :=
  BitVec.or_eq_zero_iff

/-- The value matters only where there is a mask. -/
theorem accepts_of_same_masks {f g : MaskFilter ι w} (hp : ∀ i, f.pos i = g.pos i)
    (hn : ∀ i, f.neg i = g.neg i) (hv : ∀ i, f.masked i ≠ 0 → f.value i = g.value i)
    (x : ι → BitVec w) : f.Accepts x ↔ g.Accepts x := by
  have hpos : ∀ i, (x i ^^^ f.value i) &&& f.pos i = (x i ^^^ g.value i) &&& g.pos i := by
    intro i
    by_cases h : f.masked i = 0
    · rw [← hp, (f.masked_eq_zero.1 h).1]; simp
    · rw [hv i h, hp]
  have hneg : ∀ i, (x i ^^^ f.value i) &&& f.neg i = (x i ^^^ g.value i) &&& g.neg i := by
    intro i
    by_cases h : f.masked i = 0
    · rw [← hn, (f.masked_eq_zero.1 h).2]; simp
    · rw [hv i h, hn]
  have hany : (∃ i, f.neg i ≠ 0) ↔ ∃ i, g.neg i ≠ 0 := by simp only [hn]
  simp only [Accepts, hpos, hneg, hany]

/-! ## Words that are not known -/

/-- The words at the positions `S` decide: one of them is rejected, or the bits that must not all
be equal are all there and equal, or no bit that must be equal is elsewhere and the others are
settled. -/
def DecidedOn (f : MaskFilter ι w) (S : ι → Prop) (x : ι → BitVec w) : Prop :=
  (∃ i, S i ∧ (x i ^^^ f.value i) &&& f.pos i ≠ 0) ∨
    ((∃ i, f.neg i ≠ 0) ∧ ∀ i, f.neg i ≠ 0 → S i ∧ (x i ^^^ f.value i) &&& f.neg i = 0) ∨
    ((∀ i, ¬ S i → f.pos i = 0) ∧
      ((∃ i, S i ∧ (x i ^^^ f.value i) &&& f.neg i ≠ 0) ∨ ∀ i, ¬ S i → f.neg i = 0))

theorem accepts_of_decidedOn {f : MaskFilter ι w} {S : ι → Prop} {x y z : ι → BitVec w}
    (h : f.DecidedOn S x) (hy : ∀ i, S i → y i = x i) (hz : ∀ i, S i → z i = x i)
    (ha : f.Accepts y) : f.Accepts z := by
  obtain ⟨hpos, hneg⟩ := ha
  rcases h with ⟨i, hi, hne⟩ | ⟨hex, hall⟩ | ⟨hout, hset⟩
  · exact absurd (hy i hi ▸ hpos i) hne
  · obtain ⟨i, hi⟩ := hneg hex
    have hni : f.neg i ≠ 0 := fun h0 => hi (by simp [h0])
    obtain ⟨hS, heq⟩ := hall i hni
    exact absurd (hy i hS ▸ heq) hi
  · constructor
    · intro i
      by_cases hi : S i
      · rw [hz i hi, ← hy i hi]
        exact hpos i
      · simp [hout i hi]
    · intro hex
      rcases hset with ⟨i, hi, hne⟩ | hnone
      · exact ⟨i, hz i hi ▸ hne⟩
      · obtain ⟨i, hi⟩ := hneg hex
        have hS : S i := by
          by_contra hS
          exact hi (by simp [hnone i hS])
        exact ⟨i, by rwa [hz i hS, ← hy i hS]⟩

open Classical in
/-- Words at `S` as given, elsewhere the value with the bits `m` inverted. -/
noncomputable def extend (f : MaskFilter ι w) (S : ι → Prop) (x m : ι → BitVec w) : ι → BitVec w :=
  fun i => if S i then x i else f.value i ^^^ m i

theorem extend_on {f : MaskFilter ι w} {S : ι → Prop} {x m : ι → BitVec w} {i : ι} (h : S i) :
    f.extend S x m i = x i := if_pos h

theorem extend_off {f : MaskFilter ι w} {S : ι → Prop} {x m : ι → BitVec w} {i : ι} (h : ¬ S i) :
    f.extend S x m i ^^^ f.value i = m i := by
  rw [extend, if_neg h, BitVec.xor_comm, ← BitVec.xor_assoc, BitVec.xor_self, BitVec.zero_xor]

/-- Words that agree with `x` at `S` are accepted alike. -/
def DependsOnly (f : MaskFilter ι w) (S : ι → Prop) (x : ι → BitVec w) : Prop :=
  ∀ y z, (∀ i, S i → y i = x i) → (∀ i, S i → z i = x i) → (f.Accepts y ↔ f.Accepts z)

/-- **The words at `S` are all that matters when they decide, and only then.** -/
theorem dependsOnly_iff (f : MaskFilter ι w) (S : ι → Prop) (x : ι → BitVec w) :
    f.DependsOnly S x ↔ f.DecidedOn S x := by
  refine ⟨fun h => ?_, fun h y z hy hz =>
    ⟨accepts_of_decidedOn h hy hz, accepts_of_decidedOn h hz hy⟩⟩
  by_contra hno
  simp only [DecidedOn, not_or, not_and, not_exists, not_not, not_forall] at hno
  obtain ⟨hin, hneg, hout⟩ := hno
  -- every unknown bit that must not be equal is made to differ
  have hacc : f.Accepts (f.extend S x f.neg) := by
    constructor
    · intro i
      by_cases hi : S i
      · rw [extend_on hi]
        exact hin i hi
      · rw [extend_off hi, BitVec.and_comm]
        exact f.disjoint i
    · rintro ⟨i, hi⟩
      obtain ⟨j, hj, hjS⟩ := hneg ⟨i, hi⟩
      by_cases hS : S j
      · exact ⟨j, by rw [extend_on hS]; exact hjS hS⟩
      · exact ⟨j, by rw [extend_off hS, BitVec.and_self]; exact hj⟩
  have hall : ∀ m, f.Accepts (f.extend S x m) := fun m =>
    (h _ _ (fun _ hi => extend_on hi) fun _ hi => extend_on hi).1 hacc
  have hpos : ∀ i, ¬ S i → f.pos i = 0 := by
    intro i hi
    have := (hall f.pos).1 i
    rwa [extend_off hi, BitVec.and_self] at this
  obtain ⟨hsame, i, hi, hne⟩ := hout hpos
  obtain ⟨j, hj⟩ := (hall fun _ => 0).2 ⟨i, hne⟩
  by_cases hS : S j
  · rw [extend_on hS] at hj
    exact hj (hsame j hS)
  · rw [extend_off hS] at hj
    exact hj BitVec.zero_and

/-! ## Essential bits -/

variable [DecidableEq ι]

/-- `x` with bit `k` of word `i` inverted. -/
def flip (x : ι → BitVec w) (i : ι) (k : Nat) : ι → BitVec w :=
  Function.update x i (x i ^^^ BitVec.twoPow w k)

/-- Inverting bit `k` of word `i` can turn an accepted input into a rejected one. -/
def Essential (P : (ι → BitVec w) → Prop) (i : ι) (k : Nat) : Prop :=
  ∃ x, P x ∧ ¬ P (flip x i k)

theorem getLsbD_flip {x : ι → BitVec w} {i j : ι} {k l : Nat} (hl : l < w) :
    (flip x i k j).getLsbD l = ((x j).getLsbD l ^^ decide (j = i ∧ l = k)) := by
  by_cases hj : j = i
  · subst hj
    by_cases hk : l = k
    · subst hk; simp [flip, hl]
    · simp [flip, BitVec.getLsbD_twoPow, hk, Ne.symm hk]
  · simp [flip, hj]

theorem flip_ne {x : ι → BitVec w} {i : ι} {k : Nat} (hk : k < w) :
    (flip x i k i).getLsbD k ≠ (x i).getLsbD k := by
  simp [getLsbD_flip hk]

theorem flip_eq {x : ι → BitVec w} {i j : ι} {k l : Nat} (hl : l < w) (h : ¬ (j = i ∧ l = k)) :
    (flip x i k j).getLsbD l = (x j).getLsbD l := by
  simp [getLsbD_flip hl, h]

/-- The value with one negative bit inverted is accepted. -/
theorem accepts_flip_neg (f : MaskFilter ι w) {i : ι} {k : Nat} (hk : k < w)
    (h : (f.neg i).getLsbD k = true) : f.Accepts (flip f.value i k) := by
  rw [accepts_iff]
  refine ⟨fun j l hl hp => flip_eq hl ?_, fun _ => ⟨i, k, hk, h, flip_ne hk⟩⟩
  rintro ⟨rfl, rfl⟩
  rw [f.not_pos_of_neg hk h] at hp
  exact absurd hp (by decide)

theorem exists_accepts (f : MaskFilter ι w) : ∃ x, f.Accepts x := by
  by_cases hn : ∃ i k, k < w ∧ (f.neg i).getLsbD k = true
  · obtain ⟨i, k, hk, h⟩ := hn
    exact ⟨_, f.accepts_flip_neg hk h⟩
  · exact ⟨f.value, (f.accepts_iff _).2 ⟨fun _ _ _ _ => rfl, fun h => absurd h hn⟩⟩

/-- **The essential bits are the masked ones.** -/
theorem essential_iff (f : MaskFilter ι w) {i : ι} {k : Nat} (hk : k < w) :
    Essential f.Accepts i k ↔ (f.masked i).getLsbD k = true := by
  constructor
  · rintro ⟨x, hx, hn⟩
    by_contra hm
    refine hn ((f.accepts_congr fun j l hl hj => ?_).2 hx)
    refine flip_eq hl ?_
    rintro ⟨rfl, rfl⟩
    exact hm hj
  · intro hm
    rw [getLsbD_masked, Bool.or_eq_true] at hm
    rcases hm with hp | hn
    · obtain ⟨x, hx⟩ := f.exists_accepts
      refine ⟨x, hx, fun hf => ?_⟩
      have h1 := ((f.accepts_iff x).1 hx).1 i k hk hp
      have h2 := ((f.accepts_iff _).1 hf).1 i k hk hp
      exact flip_ne hk (h2.trans h1.symm)
    · refine ⟨_, f.accepts_flip_neg hk hn, fun hf => ?_⟩
      obtain ⟨j, l, hl, -, hne⟩ := ((f.accepts_iff _).1 hf).2 ⟨i, k, hk, hn⟩
      -- inverting the bit twice gives the value back
      apply hne
      rw [getLsbD_flip hl, getLsbD_flip hl, Bool.xor_assoc, Bool.xor_self, Bool.xor_false]

/-- Filters that accept the same words look at the same bits. -/
theorem masked_eq_of_agree {f g : MaskFilter ι w} (h : ∀ x, f.Accepts x ↔ g.Accepts x) (i : ι) :
    f.masked i = g.masked i := by
  have hP : f.Accepts = g.Accepts := funext fun x => propext (h x)
  apply BitVec.eq_of_getLsbD_eq
  intro k hk
  rw [Bool.eq_iff_iff, ← f.essential_iff hk, ← g.essential_iff hk, hP]

end MaskFilter

end VendorAmlogic.Lib
