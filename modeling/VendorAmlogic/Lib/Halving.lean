import Mathlib.Tactic

/-!
# Halving a list of indices

`depth` says how often the indices between two bounds are halved until one of
them is the middle. A search by halving that is looking for a run of indices
comes first to the one with the least depth, which `Topmost` names.
-/

namespace VendorAmlogic.Lib

/-- How many halvings of the indices between `a` and `b` come before the one at `i`. -/
def depth : Nat → Int → Int → Int → Nat
  | 0, _, _, _ => 0
  | rounds + 1, a, b, i =>
    if i = (a + b) / 2 then 0
    else if i < (a + b) / 2 then depth rounds a ((a + b) / 2) i + 1
    else depth rounds ((a + b) / 2) b i + 1

variable {rounds : Nat} {a b i : Int} {p : Int → Prop}

theorem depth_mid : depth (rounds + 1) a b ((a + b) / 2) = 0 := by simp [depth]

theorem depth_low (h : i < (a + b) / 2) :
    depth (rounds + 1) a b i = depth rounds a ((a + b) / 2) i + 1 := by
  rw [depth, if_neg (by omega), if_pos h]

theorem depth_high (h : (a + b) / 2 < i) :
    depth (rounds + 1) a b i = depth rounds ((a + b) / 2) b i + 1 := by
  rw [depth, if_neg (by omega), if_neg (by omega)]

/-- Of the indices with `p`, the halving of those between `a` and `b` comes to `i` first. -/
def Topmost (rounds : Nat) (a b : Int) (p : Int → Prop) (i : Int) : Prop :=
  p i ∧ ∀ j, p j → j ≠ i → depth rounds a b i < depth rounds a b j

/-- There is one such index. -/
theorem Topmost.unique {j : Int} (hi : Topmost rounds a b p i) (hj : Topmost rounds a b p j) :
    i = j := by
  by_contra hne
  have hlt := hi.2 j hj.1 fun heq => hne heq.symm
  exact absurd (hj.2 i hi.1 hne) (by omega)

theorem topmost_mid (h : p ((a + b) / 2)) : Topmost (rounds + 1) a b p ((a + b) / 2) := by
  refine ⟨h, fun j _ hne => ?_⟩
  rw [depth_mid, depth, if_neg hne]
  split <;> omega

/-- When all of them are below the middle, the upper half does not matter. -/
theorem Topmost.low (hp : ∀ j, p j → j < (a + b) / 2)
    (h : Topmost rounds a ((a + b) / 2) p i) : Topmost (rounds + 1) a b p i := by
  refine ⟨h.1, fun j hj hne => ?_⟩
  rw [depth_low (hp i h.1), depth_low (hp j hj)]
  exact Nat.succ_lt_succ (h.2 j hj hne)

theorem Topmost.high (hp : ∀ j, p j → (a + b) / 2 < j)
    (h : Topmost rounds ((a + b) / 2) b p i) : Topmost (rounds + 1) a b p i := by
  refine ⟨h.1, fun j hj hne => ?_⟩
  rw [depth_high (hp i h.1), depth_high (hp j hj)]
  exact Nat.succ_lt_succ (h.2 j hj hne)

end VendorAmlogic.Lib
