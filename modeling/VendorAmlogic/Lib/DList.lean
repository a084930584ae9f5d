import Mathlib.Tactic

/-!
# Doubly linked lists

Nodes are addresses, and each link field is a map from addresses to addresses.
`Chain next p as` says that `as` are the nodes along `next` from `p`; `DList`
has a chain in each direction. `forNext` is the loop `for (p = start; p; p =
p->next)` with a body that may leave it: along a chain it is `walk`, a loop
over the list.
-/

namespace VendorAmlogic.Lib

def Chain (next : Nat → Option Nat) : Option Nat → List Nat → Prop
  | p, [] => p = none
  | p, a :: as => p = some a ∧ Chain next (next a) as

/-- The nodes from `p` on, as long as the fuel lasts. -/
def nodesFrom (next : Nat → Option Nat) : Nat → Option Nat → List Nat
  | fuel + 1, some a => a :: nodesFrom next fuel (next a)
  | _, _ => []

variable {σ : Type*} {next priv : Nat → Option Nat} {p first last : Option Nat} {a b : Nat}
  {as bs : List Nat}

namespace Chain

@[simp] theorem nil_iff : Chain next p [] ↔ p = none := Iff.rfl

@[simp] theorem cons_iff : Chain next p (a :: as) ↔ p = some a ∧ Chain next (next a) as := Iff.rfl

theorem congr {next' : Nat → Option Nat} (h : Chain next p as) (hn : ∀ a ∈ as, next' a = next a) :
    Chain next' p as := by
  induction as generalizing p with
  | nil => exact h
  | cons a as ih =>
    refine ⟨h.1, ?_⟩
    rw [hn a List.mem_cons_self]
    exact ih h.2 fun b hb => hn b (List.mem_cons_of_mem _ hb)

/-- A chain from one of its nodes. -/
theorem drop (h : Chain next p (bs ++ a :: as)) : Chain next (some a) (a :: as) := by
  induction bs generalizing p with
  | nil => exact ⟨rfl, h.2⟩
  | cons b bs ih => exact ih h.2

theorem head (h : Chain next p as) : p = as.head? := by
  cases as with
  | nil => exact h
  | cons a as => exact h.1

theorem nodesFrom_eq {fuel : Nat} (h : Chain next p as) (hf : as.length ≤ fuel) :
    nodesFrom next fuel p = as := by
  induction as generalizing p fuel with
  | nil =>
    rw [nil_iff] at h
    subst h
    cases fuel <;> rfl
  | cons a as ih =>
    obtain ⟨rfl, h⟩ := h
    cases fuel with
    | zero => cases hf
    | succ fuel => rw [nodesFrom, ih h (Nat.le_of_succ_le_succ hf)]

/-- A node is linked behind the last one. -/
theorem snoc (h : Chain next p (bs ++ [b])) (hb : b ∉ bs) (ha : a ∉ bs ++ [b]) :
    Chain (Function.update (Function.update next b (some a)) a none) p (bs ++ [b, a]) := by
  have hab : b ≠ a := by
    rintro rfl
    exact ha (List.mem_append_right _ List.mem_cons_self)
  induction bs generalizing p with
  | nil =>
    refine ⟨h.1, ?_, ?_⟩
    · rw [Function.update_of_ne hab, Function.update_self]
    · rw [Function.update_self]
      rfl
  | cons c bs ih =>
    have hcb : c ≠ b := fun h => hb (h ▸ List.mem_cons_self)
    have hca : c ≠ a := fun h => ha (h ▸ List.mem_cons_self)
    refine ⟨h.1, ?_⟩
    rw [Function.update_of_ne hca, Function.update_of_ne hcb]
    exact ih h.2 (fun hm => hb (List.mem_cons_of_mem _ hm)) (fun hm => ha (List.mem_cons_of_mem _ hm))

/-- The link of the last node but one is cut. -/
theorem cut (h : Chain next p (as ++ [b, a])) (hb : b ∉ as) :
    Chain (Function.update next b none) p (as ++ [b]) := by
  induction as generalizing p with
  | nil =>
    refine ⟨h.1, ?_⟩
    rw [Function.update_self]
    rfl
  | cons c as ih =>
    have hcb : c ≠ b := fun h => hb (h ▸ List.mem_cons_self)
    refine ⟨h.1, ?_⟩
    rw [Function.update_of_ne hcb]
    exact ih h.2 fun hm => hb (List.mem_cons_of_mem _ hm)

end Chain

/-! ## Links in both directions -/

structure DList (next priv : Nat → Option Nat) (first last : Option Nat) (as : List Nat) : Prop where
  fwd : Chain next first as
  bwd : Chain priv last as.reverse
  nodup : as.Nodup

namespace DList

theorem empty : DList next priv none none [] := ⟨rfl, rfl, List.nodup_nil⟩

theorem first_eq (h : DList next priv first last as) : first = as.head? := h.fwd.head

theorem last_eq (h : DList next priv first last as) : last = as.getLast? := by
  rw [h.bwd.head, List.head?_reverse]

theorem single : DList (Function.update next a none) (Function.update priv a none) (some a) (some a)
    [a] := by
  refine ⟨⟨rfl, ?_⟩, ⟨rfl, ?_⟩, List.nodup_singleton a⟩
  · rw [Function.update_self]
    rfl
  · rw [Function.update_self]
    rfl

/-- A node is added behind the last one. -/
theorem append (h : DList next priv first last (bs ++ [b])) (ha : a ∉ bs ++ [b]) :
    DList (Function.update (Function.update next b (some a)) a none)
      (Function.update priv a (some b)) first (some a) (bs ++ [b, a]) := by
  have hnd := List.nodup_append.mp h.nodup
  have hb : b ∉ bs := fun hm => hnd.2.2 b hm b List.mem_cons_self rfl
  refine ⟨h.fwd.snoc hb ha, ?_, ?_⟩
  · have hbwd : Chain priv (some b) (b :: bs.reverse) := by
      have := h.bwd
      rw [List.reverse_append] at this
      exact ⟨rfl, this.2⟩
    rw [show bs ++ [b, a] = (bs ++ [b]) ++ [a] by simp, List.reverse_append, List.reverse_append]
    refine ⟨rfl, ?_⟩
    rw [Function.update_self]
    refine hbwd.congr fun c hc => Function.update_of_ne ?_ _ _
    rintro rfl
    apply ha
    simpa [or_comm] using hc
  · rw [show bs ++ [b, a] = (bs ++ [b]) ++ [a] by simp]
    refine List.nodup_append.mpr ⟨h.nodup, List.nodup_singleton a, ?_⟩
    intro x hx y hy hxy
    rw [List.mem_singleton] at hy
    exact ha (hy ▸ hxy ▸ hx)

/-- The first node is taken off. -/
theorem tail (h : DList next priv first last (a :: b :: as)) :
    DList next (Function.update priv b none) (some b) last (b :: as) := by
  have hnd := List.nodup_cons.mp h.nodup
  refine ⟨⟨rfl, h.fwd.2.2⟩, ?_, hnd.2⟩
  rw [List.reverse_cons]
  apply Chain.cut (a := a)
  · have := h.bwd
    rw [List.reverse_cons, List.reverse_cons, List.append_assoc] at this
    exact this
  · rw [List.mem_reverse]
    exact (List.nodup_cons.mp hnd.2).1

/-- Forward from a node. -/
theorem from_next (h : DList next priv first last (bs ++ a :: as)) : Chain next (some a) (a :: as) :=
  h.fwd.drop

/-- Backward from a node. -/
theorem from_priv (h : DList next priv first last (bs ++ a :: as)) :
    Chain priv (some a) (a :: bs.reverse) := by
  have := h.bwd
  rw [List.reverse_append, List.reverse_cons, List.append_assoc] at this
  exact this.drop

end DList

/-! ## Loops -/

/-- The body is given the state and the node; `false` leaves the loop there. No result when
the fuel runs out. -/
def forNext (next : Nat → Option Nat) (body : σ → Nat → σ × Bool) :
    Nat → Option Nat → σ → Option (σ × Option Nat)
  | _, none, s => some (s, none)
  | 0, some _, _ => none
  | fuel + 1, some p, s =>
    let r := body s p
    if r.2 then forNext next body fuel (next p) r.1 else some (r.1, some p)

def walk (body : σ → Nat → σ × Bool) : List Nat → σ → σ × Option Nat
  | [], s => (s, none)
  | p :: ps, s =>
    let r := body s p
    if r.2 then walk body ps r.1 else (r.1, some p)

/-- **Loop rule**: along a chain. -/
theorem Chain.forNext_eq {body : σ → Nat → σ × Bool} {fuel : Nat} {s : σ} (h : Chain next p as)
    (hf : as.length ≤ fuel) : forNext next body fuel p s = some (walk body as s) := by
  induction as generalizing p fuel s with
  | nil =>
    rw [nil_iff] at h
    subst h
    cases fuel <;> rfl
  | cons a as ih =>
    obtain ⟨rfl, h⟩ := h
    cases fuel with
    | zero => cases hf
    | succ fuel =>
      simp only [forNext, walk]
      split
      · exact ih h (Nat.le_of_succ_le_succ hf)
      · rfl

/-- **Invariant rule** for a loop over a list. -/
theorem walk_inv {body : σ → Nat → σ × Bool} {Inv : σ → Prop} {s : σ}
    (hbody : ∀ s a, a ∈ as → Inv s → Inv (body s a).1) (h : Inv s) : Inv (walk body as s).1 := by
  induction as generalizing s with
  | nil => exact h
  | cons a as ih =>
    have h1 := hbody s a List.mem_cons_self h
    simp only [walk]
    split
    · exact ih (fun s b hb => hbody s b (List.mem_cons_of_mem _ hb)) h1
    · exact h1

end VendorAmlogic.Lib
