import Mathlib.Tactic

/-!
# A cipher of rounds and its equivalent inverse

A block cipher that adds a key, takes rounds of a substitution, a mixing and a key, and ends with a
substitution and a key. Its inverse can take the same steps in the same order, with the inverse
substitution and the inverse mixing, when the mixing can be exchanged with adding a key: the keys
come in reverse order, and those of the inner rounds are mixed themselves.
-/

namespace VendorAmlogic.Lib

variable {S : Type*} (add : S → S → S) (sub mix : S → S)

/-- Rounds `r + 1` to `r + n` with the keys `k`. -/
def roundsFrom (k : Nat → S) : Nat → Nat → S → S
  | 0, _, s => s
  | n + 1, r, s => roundsFrom k n (r + 1) (add (mix (sub s)) (k (r + 1)))

/-- The cipher with `n + 1` rounds. -/
def crypt (k : Nat → S) (n : Nat) (s : S) : S :=
  add (sub (roundsFrom add sub mix k n 0 (add s (k 0)))) (k (n + 1))

/-- What makes a substitution and a mixing undo others. -/
structure Undoes (isub imix : S → S) : Prop where
  cancel : ∀ s k, add (add s k) k = s
  isub_sub : ∀ s, isub (sub s) = s
  imix_mix : ∀ s, imix (mix s) = s
  imix_add : ∀ s k, imix (add s k) = add (imix s) (imix k)

variable {add sub mix} {isub imix : S → S} {k d : Nat → S} {n : Nat}

theorem roundsFrom_succ_last (n r : Nat) (s : S) :
    roundsFrom add sub mix k (n + 1) r s =
      add (mix (sub (roundsFrom add sub mix k n r s))) (k (r + n + 1)) := by
  induction n generalizing r s with
  | zero => rfl
  | succ n ih =>
    rw [roundsFrom, ih, roundsFrom]
    congr 2
    omega

/-- The inner rounds backwards: from the substitution of the last state to that of the first. -/
theorem roundsFrom_undo (h : Undoes add sub mix isub imix) (hd : ∀ r, 0 < r → r ≤ n →
      d r = imix (k (n + 1 - r))) (s : S) (m : Nat) (hm : m ≤ n) :
    roundsFrom add isub imix d m 0 (sub (roundsFrom add sub mix k n 0 s)) =
      sub (roundsFrom add sub mix k (n - m) 0 s) := by
  induction m with
  | zero => rfl
  | succ m ih =>
    obtain ⟨l, hl⟩ : ∃ l, n - m = l + 1 := ⟨n - m - 1, by omega⟩
    have hlast : n - (m + 1) = l := by omega
    rw [roundsFrom_succ_last, ih (by omega), h.isub_sub, hl, roundsFrom_succ_last, h.imix_add,
      h.imix_mix, hd (0 + m + 1) (by omega) (by omega), hlast]
    have hkey : n + 1 - (0 + m + 1) = 0 + l + 1 := by omega
    rw [hkey, h.cancel]

/-- **The equivalent inverse** takes back the cipher. -/
theorem crypt_crypt (h : Undoes add sub mix isub imix) (hfirst : d 0 = k (n + 1))
    (hd : ∀ r, 0 < r → r ≤ n → d r = imix (k (n + 1 - r))) (hlast : d (n + 1) = k 0) (s : S) :
    crypt add isub imix d n (crypt add sub mix k n s) = s := by
  rw [crypt, crypt, hfirst, h.cancel, roundsFrom_undo h hd _ n le_rfl, Nat.sub_self]
  change add (isub (sub (add s (k 0)))) (d (n + 1)) = s
  rw [h.isub_sub, hlast, h.cancel]

end VendorAmlogic.Lib
