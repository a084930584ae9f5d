import Mathlib.Tactic

/-!
# Computations that emit events and may stop

`Trace ε α` is the result of a computation that emits events in order and then
returns a value, or stops where the program has no defined behaviour. The
events emitted before the stop are kept. Three notions of postcondition, each
with a rule for sequencing:

* `Meets P Q`: every event meets `P`, and the value, if there is one, `Q`;
* `Yields view L Q`: the events, seen through `view`, are `L`, and there is a
  value, which meets `Q`;
* `Spends cost left Q n`: the events cost no more than `n` together with what
  is `left`.
-/

namespace VendorAmlogic.Lib

universe u v

structure Trace (ε : Type u) (α : Type v) where
  events : List ε
  value : Option α

namespace Trace

variable {ε : Type u} {α β γ : Type v}

/-- No defined behaviour from here on. -/
def stop : Trace ε α := ⟨[], none⟩

/-- Emit one event. -/
def emit (e : ε) (a : α) : Trace ε α := ⟨[e], some a⟩

/-- A partial step that emits nothing. -/
def ofOption (o : Option α) : Trace ε α := ⟨[], o⟩

instance : Monad (Trace ε) where
  pure a := ⟨[], some a⟩
  bind x f := match x.value with
    | none => ⟨x.events, none⟩
    | some a => ⟨x.events ++ (f a).events, (f a).value⟩

@[simp] theorem pure_events (a : α) : (pure a : Trace ε α).events = [] := rfl

@[simp] theorem pure_value (a : α) : (pure a : Trace ε α).value = some a := rfl

@[simp] theorem pure_bind (a : α) (f : α → Trace ε β) : ((pure a : Trace ε α) >>= f) = f a := by
  cases h : f a with
  | mk es v => simp [bind, h]

@[simp] theorem ofOption_some (a : α) : (ofOption (some a) : Trace ε α) = pure a := rfl

@[simp] theorem ofOption_none : (ofOption none : Trace ε α) = stop := rfl

@[simp] theorem stop_bind (f : α → Trace ε β) : ((stop : Trace ε α) >>= f) = stop := rfl

@[simp] theorem emit_bind (e : ε) (a : α) (f : α → Trace ε β) :
    (emit e a >>= f) = ⟨e :: (f a).events, (f a).value⟩ := rfl

theorem bind_of_some {x : Trace ε α} {a : α} (h : x.value = some a) (f : α → Trace ε β) :
    (x >>= f) = ⟨x.events ++ (f a).events, (f a).value⟩ := by
  simp only [bind, h]

theorem bind_of_none {x : Trace ε α} (h : x.value = none) (f : α → Trace ε β) :
    (x >>= f) = ⟨x.events, none⟩ := by
  simp only [bind, h]

theorem bind_assoc (x : Trace ε α) (f : α → Trace ε β) (k : β → Trace ε γ) :
    (x >>= f >>= k) = x >>= fun a => f a >>= k := by
  cases hx : x.value with
  | none => rw [bind_of_none hx, bind_of_none hx, bind_of_none rfl]
  | some a =>
    rw [bind_of_some hx, bind_of_some hx]
    cases hf : (f a).value with
    | none => rw [bind_of_none rfl, bind_of_none hf]
    | some b => rw [bind_of_some rfl, bind_of_some hf, List.append_assoc]

/-- Every event meets `P`; the value, if there is one, meets `Q`. -/
structure Meets (P : ε → Prop) (Q : α → Prop) (x : Trace ε α) : Prop where
  events : ∀ e ∈ x.events, P e
  value : ∀ a, x.value = some a → Q a

section
variable {P : ε → Prop} {Q : α → Prop} {R : β → Prop}

theorem meets_pure {a : α} (h : Q a) : Meets P Q (pure a : Trace ε α) :=
  ⟨fun _ he => absurd he List.not_mem_nil, fun _ hb => Option.some.inj hb ▸ h⟩

theorem meets_stop : Meets P Q (stop : Trace ε α) :=
  ⟨fun _ he => absurd he List.not_mem_nil, fun _ hb => nomatch hb⟩

theorem meets_ofOption {o : Option α} (h : ∀ a, o = some a → Q a) :
    Meets P Q (ofOption o : Trace ε α) :=
  ⟨fun _ he => absurd he List.not_mem_nil, h⟩

theorem meets_emit {e : ε} {a : α} (he : P e) (ha : Q a) : Meets P Q (emit e a) :=
  ⟨fun _ h => List.mem_singleton.mp h ▸ he, fun _ hb => Option.some.inj hb ▸ ha⟩

/-- The rule for sequencing. -/
theorem Meets.bind {x : Trace ε α} {f : α → Trace ε β} (hx : Meets P Q x)
    (hf : ∀ a, Q a → Meets P R (f a)) : Meets P R (x >>= f) := by
  cases hv : x.value with
  | none =>
    rw [bind_of_none hv]
    exact ⟨hx.events, fun _ hb => nomatch hb⟩
  | some a =>
    have h := hf a (hx.value a hv)
    rw [bind_of_some hv]
    refine ⟨fun e he => ?_, h.value⟩
    rcases List.mem_append.mp he with he | he
    · exact hx.events e he
    · exact h.events e he

/-- The events, seen through `view`, are `L`, and there is a value. -/
structure Yields (view : ε → Option γ) (L : List γ) (Q : α → Prop) (x : Trace ε α) : Prop where
  seen : x.events.filterMap view = L
  value : ∃ a, x.value = some a ∧ Q a

theorem yields_pure {view : ε → Option γ} {a : α} (h : Q a) :
    Yields view [] Q (pure a : Trace ε α) :=
  ⟨rfl, a, rfl, h⟩

theorem Yields.mono {view : ε → Option γ} {L : List γ} {Q' : α → Prop} {x : Trace ε α}
    (hx : Yields view L Q x) (h : ∀ a, Q a → Q' a) : Yields view L Q' x :=
  ⟨hx.seen, hx.value.imp fun a ha => ⟨ha.1, h a ha.2⟩⟩

theorem Yields.bind {view : ε → Option γ} {L M : List γ} {x : Trace ε α} {f : α → Trace ε β}
    (hx : Yields view L Q x) (hf : ∀ a, Q a → Yields view M R (f a)) :
    Yields view (L ++ M) R (x >>= f) := by
  obtain ⟨a, hv, ha⟩ := hx.value
  obtain ⟨hs, hw⟩ := hf a ha
  rw [bind_of_some hv]
  exact ⟨by rw [List.filterMap_append, hx.seen, hs], hw⟩

/-- The events seen after a step are those of the step and of what follows. -/
theorem Yields.seen_bind {view : ε → Option γ} {L : List γ} {x : Trace ε α} (hx : Yields view L Q x)
    (f : α → Trace ε β) :
    ∃ a, Q a ∧ (x >>= f).events.filterMap view = L ++ (f a).events.filterMap view := by
  obtain ⟨a, hv, ha⟩ := hx.value
  refine ⟨a, ha, ?_⟩
  rw [bind_of_some hv, List.filterMap_append, hx.seen]

/-- What the rest of a computation is given to spend. -/
def leftover (left : α → Nat) (x : Trace ε α) : Nat := x.value.elim 0 left

/-- The events cost no more than `n` together with what is left. -/
structure Spends (cost : ε → Nat) (left : α → Nat) (Q : α → Prop) (n : Nat) (x : Trace ε α) :
    Prop where
  le : (x.events.map cost).sum + x.leftover left ≤ n
  value : ∀ a, x.value = some a → Q a

theorem spends_pure {cost : ε → Nat} {left : α → Nat} {a : α} {n : Nat} (h : left a ≤ n)
    (hq : Q a) : Spends cost left Q n (pure a : Trace ε α) :=
  ⟨by simpa [leftover] using h, fun _ hb => Option.some.inj hb ▸ hq⟩

theorem spends_stop {cost : ε → Nat} {left : α → Nat} {n : Nat} :
    Spends cost left Q n (stop : Trace ε α) :=
  ⟨Nat.zero_le n, fun _ hb => nomatch hb⟩

theorem Spends.bind {cost : ε → Nat} {left : α → Nat} {left' : β → Nat} {n : Nat}
    {x : Trace ε α} {f : α → Trace ε β} (hx : Spends cost left Q n x)
    (hf : ∀ a, Q a → Spends cost left' R (left a) (f a)) :
    Spends cost left' R n (x >>= f) := by
  have hle := hx.le
  cases hv : x.value with
  | none =>
    rw [bind_of_none hv]
    refine ⟨?_, fun _ hb => nomatch hb⟩
    simp only [leftover, hv, Option.elim_none] at hle ⊢
    exact hle
  | some a =>
    have h := hf a (hx.value a hv)
    have hle' := h.le
    rw [bind_of_some hv]
    refine ⟨?_, h.value⟩
    simp only [leftover, hv, Option.elim_some, List.map_append, List.sum_append] at hle hle' ⊢
    omega

/-- What is not spent is left. -/
theorem Spends.frame {cost : ε → Nat} {left : α → Nat} {n : Nat} {x : Trace ε α}
    (hx : Spends cost left Q n x) (k : Nat) : Spends cost (fun a => left a + k) Q (n + k) x := by
  have hle := hx.le
  refine ⟨?_, hx.value⟩
  cases hv : x.value with
  | none => simp only [leftover, hv, Option.elim_none] at hle ⊢; omega
  | some a => simp only [leftover, hv, Option.elim_some] at hle ⊢; omega

theorem Spends.mono {cost : ε → Nat} {left : α → Nat} {n m : Nat} {x : Trace ε α}
    (hx : Spends cost left Q n x) (h : n ≤ m) : Spends cost left Q m x :=
  ⟨Nat.le_trans hx.le h, hx.value⟩

/-- One step after the other, over a list of inputs. -/
def feed {σ ι : Type v} (step : σ → ι → Trace ε σ) : σ → List ι → Trace ε σ
  | s, [] => pure s
  | s, i :: is => step s i >>= fun s => feed step s is

/-- **Invariant rule** for a run. -/
theorem meets_feed {σ ι : Type v} {step : σ → ι → Trace ε σ} {Inv : σ → Prop}
    (hstep : ∀ s i, Inv s → Meets P Inv (step s i)) {s : σ} (hs : Inv s) (is : List ι) :
    Meets P Inv (feed step s is) := by
  induction is generalizing s with
  | nil => exact meets_pure hs
  | cons i is ih => exact (hstep s i hs).bind fun _ ht => ih ht

end

end Trace

end VendorAmlogic.Lib
