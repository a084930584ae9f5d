import Mathlib.Tactic

/-!
# Runs of a step function

A component is a step function `step : σ → ι → σ × ο` over states, inputs and
outputs. `run step s is` feeds it the inputs in order and collects the
outputs. `Each ok step s is` says every step of that run meets the side
condition `ok` in the state it is taken in; the invariant and the simulation
rule below are relative to such a condition.
-/

namespace VendorAmlogic.Lib

variable {σ τ ι ο : Type*}

def run (step : σ → ι → σ × ο) : σ → List ι → σ × List ο
  | s, [] => (s, [])
  | s, i :: is =>
    let r := step s i
    let rs := run step r.1 is
    (rs.1, r.2 :: rs.2)

/-- Every step of the run from `s` is taken in a state where `ok` holds. -/
def Each (ok : σ → ι → Prop) (step : σ → ι → σ × ο) : σ → List ι → Prop
  | _, [] => True
  | s, i :: is => ok s i ∧ Each ok step (step s i).1 is

instance instDecidableEach {ok : σ → ι → Prop} [∀ s i, Decidable (ok s i)] {step : σ → ι → σ × ο} :
    ∀ (s : σ) (is : List ι), Decidable (Each ok step s is)
  | _, [] => isTrue trivial
  | s, i :: is =>
    have : Decidable (Each ok step (step s i).1 is) := instDecidableEach _ is
    inferInstanceAs (Decidable (ok s i ∧ Each ok step (step s i).1 is))

@[simp] theorem run_nil (step : σ → ι → σ × ο) (s : σ) : run step s [] = (s, []) := rfl

@[simp] theorem run_cons (step : σ → ι → σ × ο) (s : σ) (i : ι) (is : List ι) :
    run step s (i :: is) =
      ((run step (step s i).1 is).1, (step s i).2 :: (run step (step s i).1 is).2) := rfl

@[simp] theorem each_nil (ok : σ → ι → Prop) (step : σ → ι → σ × ο) (s : σ) :
    Each ok step s [] ↔ True := Iff.rfl

@[simp] theorem each_cons (ok : σ → ι → Prop) (step : σ → ι → σ × ο) (s : σ) (i : ι)
    (is : List ι) :
    Each ok step s (i :: is) ↔ ok s i ∧ Each ok step (step s i).1 is := Iff.rfl

/-- A run in two parts. -/
theorem run_append (step : σ → ι → σ × ο) (s : σ) (is js : List ι) :
    run step s (is ++ js) =
      ((run step (run step s is).1 js).1, (run step s is).2 ++ (run step (run step s is).1 js).2) := by
  induction is generalizing s with
  | nil => rfl
  | cons i is ih => simp only [List.cons_append, run_cons, ih]

theorem each_append {ok : σ → ι → Prop} {step : σ → ι → σ × ο} {is js : List ι} {s : σ} :
    Each ok step s (is ++ js) ↔ Each ok step s is ∧ Each ok step (run step s is).1 js := by
  induction is generalizing s with
  | nil => simp
  | cons i is ih => simp only [List.cons_append, each_cons, run_cons, ih, and_assoc]

theorem each_of_forall {ok : σ → ι → Prop} {step : σ → ι → σ × ο} (h : ∀ s i, ok s i) (s : σ)
    (is : List ι) : Each ok step s is := by
  induction is generalizing s with
  | nil => trivial
  | cons i is ih => exact ⟨h s i, ih _⟩

/-- A side condition on the inputs alone. -/
theorem each_of_forall_mem {p : ι → Prop} {step : σ → ι → σ × ο} {is : List ι} (h : ∀ i ∈ is, p i)
    (s : σ) : Each (fun _ i => p i) step s is := by
  induction is generalizing s with
  | nil => trivial
  | cons i is ih =>
    exact ⟨h i List.mem_cons_self, ih (fun j hj => h j (List.mem_cons_of_mem i hj)) _⟩

/-- A side condition on the inputs alone, of all of them. -/
theorem each_mem_iff {p : ι → Prop} {step : σ → ι → σ × ο} {is : List ι} {s : σ} :
    Each (fun _ i => p i) step s is ↔ ∀ i ∈ is, p i := by
  refine ⟨fun h => ?_, fun h => each_of_forall_mem h s⟩
  induction is generalizing s with
  | nil => exact fun i hi => absurd hi List.not_mem_nil
  | cons i is ih => exact List.forall_mem_cons.mpr ⟨h.1, ih h.2⟩

/-- What is so of every input joins a side condition. -/
theorem Each.and_forall_mem {ok : σ → ι → Prop} {p : ι → Prop} {step : σ → ι → σ × ο} {is : List ι}
    {s : σ} (h : Each ok step s is) (hp : ∀ i ∈ is, p i) :
    Each (fun s i => ok s i ∧ p i) step s is := by
  induction is generalizing s with
  | nil => trivial
  | cons i is ih =>
    exact ⟨⟨h.1, hp i List.mem_cons_self⟩, ih h.2 fun j hj => hp j (List.mem_cons_of_mem _ hj)⟩

/-- Two side conditions make one. -/
theorem Each.and {ok ok' : σ → ι → Prop} {step : σ → ι → σ × ο} {is : List ι} {s : σ}
    (h : Each ok step s is) (h' : Each ok' step s is) :
    Each (fun s i => ok s i ∧ ok' s i) step s is := by
  induction is generalizing s with
  | nil => trivial
  | cons i is ih => exact ⟨⟨h.1, h'.1⟩, ih h.2 h'.2⟩

/-- **Invariant rule**: what every admissible step preserves holds after every
admissible run. -/
theorem run_inv {step : σ → ι → σ × ο} {ok : σ → ι → Prop} {Inv : σ → Prop}
    (hstep : ∀ s i, Inv s → ok s i → Inv (step s i).1) {is : List ι} {s : σ}
    (h : Inv s) (hok : Each ok step s is) : Inv (run step s is).1 := by
  induction is generalizing s with
  | nil => exact h
  | cons i is ih => exact ih (hstep s i h hok.1) hok.2

/-- **Step rule**: what an invariant and the side condition give of a step is so of every step of
an admissible run. -/
theorem each_inv {step : σ → ι → σ × ο} {ok Q : σ → ι → Prop} {Inv : σ → Prop}
    (hstep : ∀ s i, Inv s → ok s i → Inv (step s i).1 ∧ Q s i) {is : List ι} {s : σ}
    (h : Inv s) (hok : Each ok step s is) : Each Q step s is := by
  induction is generalizing s with
  | nil => trivial
  | cons i is ih =>
    obtain ⟨hinv, hq⟩ := hstep s i h hok.1
    exact ⟨hq, ih hinv hok.2⟩

/-- **Exact step rule**: when, in the states with an invariant, `ok` says of a step with `frame`
precisely that it does as `Q` asks, and the invariant stays then, both hold of the same runs with
`frame`. -/
theorem each_iff_of_frame {step : σ → ι → σ × ο} {ok Q frame : σ → ι → Prop} {Inv : σ → Prop}
    (hstep : ∀ s i, Inv s → frame s i → (Q s i ↔ ok s i) ∧ (ok s i → Inv (step s i).1))
    {is : List ι} {s : σ} (h : Inv s) (hframe : Each frame step s is) :
    Each Q step s is ↔ Each ok step s is := by
  induction is generalizing s with
  | nil => exact Iff.rfl
  | cons i is ih =>
    obtain ⟨hiff, hinv⟩ := hstep s i h hframe.1
    rw [each_cons, each_cons, hiff]
    exact and_congr_right fun hok => ih (hinv hok) hframe.2

theorem each_iff {step : σ → ι → σ × ο} {ok Q : σ → ι → Prop} {Inv : σ → Prop}
    (hstep : ∀ s i, Inv s → (Q s i ↔ ok s i) ∧ (ok s i → Inv (step s i).1)) {is : List ι} {s : σ}
    (h : Inv s) : Each Q step s is ↔ Each ok step s is :=
  each_iff_of_frame (fun s i hs _ => hstep s i hs) h (each_of_forall (fun _ _ => trivial) s is)

/-- Two side conditions that are the same in every state with an invariant hold of the same runs. -/
theorem each_congr {step : σ → ι → σ × ο} {ok ok' : σ → ι → Prop} {Inv : σ → Prop}
    (hstep : ∀ s i, Inv s → Inv (step s i).1) (hiff : ∀ s i, Inv s → (ok s i ↔ ok' s i)) {is : List ι}
    {s : σ} (h : Inv s) : Each ok step s is ↔ Each ok' step s is :=
  each_iff (fun s i hs => ⟨hiff s i hs, fun _ => hstep s i hs⟩) h

/-- What no step lets grow by more than its input stays within the sum of the inputs. -/
theorem each_of_sum {step : σ → ι → σ × ο} (size : σ → Nat) (len : ι → Nat) {P : Nat → Prop}
    (hstep : ∀ s i, size (step s i).1 ≤ size s + len i) {is : List ι} {s : σ}
    (h : ∀ n, n ≤ size s + (is.map len).sum → P n) :
    Each (fun s i => P (size s + len i)) step s is := by
  induction is generalizing s with
  | nil => trivial
  | cons i is ih =>
    rw [List.map_cons, List.sum_cons] at h
    have hi := hstep s i
    exact ⟨h _ (by omega), ih fun n hn => h n (by omega)⟩

/-- **Output rule**: what every admissible step from a state with the invariant
puts out is so for every output of an admissible run. -/
theorem run_out {step : σ → ι → σ × ο} {ok : σ → ι → Prop} {Inv : σ → Prop} {Q : ο → Prop}
    (hstep : ∀ s i, Inv s → ok s i → Inv (step s i).1 ∧ Q (step s i).2) {is : List ι} {s : σ}
    (h : Inv s) (hok : Each ok step s is) : ∀ o ∈ (run step s is).2, Q o := by
  induction is generalizing s with
  | nil => exact fun _ ho => absurd ho List.not_mem_nil
  | cons i is ih =>
    obtain ⟨hinv, hq⟩ := hstep s i h hok.1
    intro o ho
    rcases List.mem_cons.mp ho with rfl | ho
    · exact hq
    · exact ih hinv hok.2 o ho

/-- **History rule**: with an invariant between the state and the outputs so far, every output
of an admissible run is as the outputs before it require. -/
theorem run_hist {step : σ → ι → σ × ο} {ok : σ → ι → Prop} {Inv : σ → List ο → Prop}
    {Q : List ο → ο → Prop}
    (hstep : ∀ s h i, Inv s h → ok s i → Inv (step s i).1 (h ++ [(step s i).2]) ∧ Q h (step s i).2)
    {is : List ι} {s : σ} {h : List ο} (hinv : Inv s h) (hok : Each ok step s is)
    {pre post : List ο} {o : ο} (hsplit : (run step s is).2 = pre ++ o :: post) : Q (h ++ pre) o := by
  induction is generalizing s h pre with
  | nil => simp at hsplit
  | cons i is ih =>
    obtain ⟨hinv', hq⟩ := hstep s h i hinv hok.1
    rw [run_cons] at hsplit
    cases pre with
    | nil =>
      obtain ⟨rfl, -⟩ := List.cons.inj hsplit
      rwa [List.append_nil]
    | cons p pre =>
      obtain ⟨rfl, hrest⟩ := List.cons.inj hsplit
      rw [List.append_cons]
      exact ih hinv' hok.2 hrest

/-- **Simulation rule**: if admissible steps of `step` are matched by steps of
`spec` with the same output, related states give the same outputs over every
admissible run. -/
theorem run_sim {step : σ → ι → σ × ο} {spec : τ → ι → τ × ο} {ok : σ → ι → Prop}
    {R : σ → τ → Prop}
    (hstep : ∀ s t i, R s t → ok s i →
      R (step s i).1 (spec t i).1 ∧ (step s i).2 = (spec t i).2)
    {is : List ι} {s : σ} {t : τ} (h : R s t) (hok : Each ok step s is) :
    R (run step s is).1 (run spec t is).1 ∧ (run step s is).2 = (run spec t is).2 := by
  induction is generalizing s t with
  | nil => exact ⟨h, rfl⟩
  | cons i is ih =>
    obtain ⟨h1, h2⟩ := hstep s t i h hok.1
    obtain ⟨h3, h4⟩ := ih h1 hok.2
    exact ⟨h3, by rw [run_cons, run_cons, h2, h4]⟩

/-- Two systems side by side. -/
def both {ο' : Type*} (step : σ → ι → σ × ο) (spec : τ → ι → τ × ο') (st : σ × τ) (i : ι) :
    (σ × τ) × (ο × ο') :=
  (((step st.1 i).1, (spec st.2 i).1), ((step st.1 i).2, (spec st.2 i).2))

/-- **Exact simulation rule**: when, between related states, `ok` says of a step of `spec`
precisely that `step` does as `Q` asks, and the states stay related then, the runs that do are
those of `spec` that are admissible. `frame` is what all runs of `spec` considered have. -/
theorem each_both_iff {ο' : Type*} {step : σ → ι → σ × ο} {spec : τ → ι → τ × ο'}
    {Q : σ × τ → ι → Prop} {ok frame : τ → ι → Prop} {R : σ → τ → Prop}
    (hstep : ∀ s t i, R s t → frame t i →
      (Q (s, t) i ↔ ok t i) ∧ (ok t i → R (step s i).1 (spec t i).1))
    {is : List ι} {s : σ} {t : τ} (h : R s t) (hframe : Each frame spec t is) :
    Each Q (both step spec) (s, t) is ↔ Each ok spec t is := by
  induction is generalizing s t with
  | nil => exact Iff.rfl
  | cons i is ih =>
    obtain ⟨hiff, hrel⟩ := hstep s t i h hframe.1
    rw [each_cons, each_cons, hiff]
    exact and_congr_right fun hok => ih (hrel hok) hframe.2

/-- `P` holds in every state of the run, the first and the last included. -/
def Always (P : σ → Prop) (step : σ → ι → σ × ο) : σ → List ι → Prop
  | s, [] => P s
  | s, i :: is => P s ∧ Always P step (step s i).1 is

/-- **Safety rule**: what follows from an invariant that every admissible step
preserves holds in every state of an admissible run. -/
theorem always_inv {step : σ → ι → σ × ο} {ok : σ → ι → Prop} {Inv P : σ → Prop}
    (hstep : ∀ s i, Inv s → ok s i → Inv (step s i).1) (hP : ∀ s, Inv s → P s) {is : List ι}
    {s : σ} (h : Inv s) (hok : Each ok step s is) : Always P step s is := by
  induction is generalizing s with
  | nil => exact hP s h
  | cons i is ih => exact ⟨hP s h, ih (hstep s i h hok.1) hok.2⟩

/-- **Exact side condition**: when, in the states where `P` and the frame
condition `A` hold, `ok` says of a step precisely that it keeps `P`, the runs
through `P`-states are the admissible ones. -/
theorem always_iff_each {step : σ → ι → σ × ο} {ok : σ → ι → Prop} {P A : σ → Prop}
    (hstep : ∀ s i, A s → P s → (P (step s i).1 ↔ ok s i))
    (hA : ∀ s i, A s → P s → A (step s i).1) {is : List ι} {s : σ} (ha : A s) (hp : P s) :
    Always P step s is ↔ Each ok step s is := by
  induction is generalizing s with
  | nil => exact iff_of_true hp trivial
  | cons i is ih =>
    constructor
    · rintro ⟨-, h⟩
      have hp' : P (step s i).1 := by
        cases is with
        | nil => exact h
        | cons j is => exact h.1
      exact ⟨(hstep s i ha hp).1 hp', (ih (hA s i ha hp) hp').1 h⟩
    · rintro ⟨hok, h⟩
      have hp' := (hstep s i ha hp).2 hok
      exact ⟨hp, (ih (hA s i ha hp) hp').2 h⟩

end VendorAmlogic.Lib
