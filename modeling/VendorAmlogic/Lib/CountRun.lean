import Mathlib.Tactic

/-!
# Counting a run

`countRun p n k` is how many numbers from `k` on have `p`, one behind the other,
where no more than `n` are looked at. A predicate on blocks of `P` numbers is
also counted by its blocks.
-/

namespace VendorAmlogic.Lib

variable {p : Int → Prop} {n m : Nat} {k : Int}

/-- The run from `k` on has `m` numbers. -/
structure RunOf (p : Int → Prop) (k : Int) (m : Nat) : Prop where
  holds : ∀ i : Nat, i < m → p (k + i)
  ends : ¬ p (k + m)

theorem RunOf.holds_iff (h : RunOf p k m) (n : Nat) : (∀ i : Nat, i < n → p (k + i)) ↔ n ≤ m := by
  refine ⟨fun hall => ?_, fun hle i hi => h.holds i (by omega)⟩
  by_contra hlt
  exact h.ends (hall m (by omega))

/-- The run of blocks as a run of numbers. -/
theorem RunOf.blocks {P r : Nat} {q : Int} (h : RunOf p q m) (hr : r < P) :
    RunOf (fun x => p (x / P)) (q * P + r) (m * P - r) := by
  have hP : (0 : Int) < P := by omega
  have hdiv (i : Nat) : (q * P + r + i : Int) / P = q + ((r + i) / P : Nat) := by
    rw [add_assoc, Int.mul_comm q, Int.mul_add_ediv_left _ _ hP.ne', Int.natCast_ediv]
    push_cast
    rfl
  refine ⟨fun i hi => ?_, ?_⟩
  · rw [hdiv]
    exact h.holds _ ((Nat.div_lt_iff_lt_mul (by omega)).mpr (by omega))
  · rw [hdiv]
    by_cases hm : m = 0
    · have hzero : (r + (m * P - r)) / P = m := by
        rw [hm, Nat.zero_mul, Nat.zero_sub, Nat.add_zero, Nat.div_eq_of_lt hr]
      rw [hzero]
      exact h.ends
    · have hle : P ≤ m * P := Nat.le_mul_of_pos_left P (by omega)
      have hdivm : (r + (m * P - r)) / P = m := by
        rw [show r + (m * P - r) = m * P by omega, Nat.mul_div_cancel m (by omega)]
      rw [hdivm]
      exact h.ends

variable [DecidablePred p]

def countRun (p : Int → Prop) [DecidablePred p] : Nat → Int → Nat
  | 0, _ => 0
  | n + 1, k => if p k then countRun p n (k + 1) + 1 else 0

theorem countRun_spec (p : Int → Prop) [DecidablePred p] (n : Nat) (k : Int) :
    (∀ i : Nat, i < countRun p n k → p (k + i)) ∧
      (countRun p n k = n ∨ countRun p n k < n ∧ ¬ p (k + countRun p n k)) := by
  induction n generalizing k with
  | zero => exact ⟨fun i hi => absurd hi (Nat.not_lt_zero i), .inl rfl⟩
  | succ n ih =>
    obtain ⟨hall, hend⟩ := ih (k + 1)
    rw [countRun]
    by_cases hp : p k
    · rw [if_pos hp]
      refine ⟨fun i hi => ?_, ?_⟩
      · cases i with
        | zero => rwa [Nat.cast_zero, add_zero]
        | succ i =>
          have h := hall i (by omega)
          rwa [show k + ((i + 1 : Nat) : Int) = k + 1 + i by push_cast; ring]
      · refine hend.imp (fun h => by rw [h]) fun ⟨hlt, hnot⟩ => ⟨by omega, ?_⟩
        rwa [show k + ((countRun p n (k + 1) + 1 : Nat) : Int) = k + 1 + countRun p n (k + 1) by
          push_cast; ring]
    · rw [if_neg hp]
      refine ⟨fun i hi => absurd hi (Nat.not_lt_zero i), .inr ⟨Nat.succ_pos n, ?_⟩⟩
      rwa [Nat.cast_zero, add_zero]

/-- All that is looked at. -/
theorem countRun_eq_self_iff : countRun p n k = n ↔ ∀ i : Nat, i < n → p (k + i) := by
  obtain ⟨hall, hend⟩ := countRun_spec p n k
  refine ⟨fun h i hi => hall i (by rwa [h]), fun h => ?_⟩
  rcases hend with hn | ⟨hlt, hnot⟩
  · exact hn
  · exact absurd (h _ hlt) hnot

theorem RunOf.countRun_eq (h : RunOf p k m) (n : Nat) : countRun p n k = min n m := by
  obtain ⟨hall, hend⟩ := countRun_spec p n k
  have hle : countRun p n k ≤ m := by
    by_contra hlt
    exact h.ends (hall m (by omega))
  rcases hend with hn | ⟨hlt, hnot⟩
  · omega
  · have hge : m ≤ countRun p n k := by
      by_contra hm
      exact hnot (h.holds _ (by omega))
    omega

/-- A run does not go on for ever. -/
theorem exists_runOf {j : Int} (hend : ∀ x, j ≤ x → ¬ p x) (k : Int) : ∃ m, RunOf p k m := by
  obtain ⟨hall, hn⟩ := countRun_spec p ((j - k).toNat + 1) k
  refine ⟨_, hall, ?_⟩
  rcases hn with hn | hn
  · rw [hn]
    exact hend _ (by push_cast; omega)
  · exact hn.2

end VendorAmlogic.Lib
