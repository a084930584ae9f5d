import VendorAmlogic.Lib.Run

/-!
# A mutex that is not recursive

Threads that take and release one mutex, each in the order of its program. A
thread that finds the mutex taken waits. `Safe` says that no thread is about
to take the mutex while it holds it, or to release it while it does not.
Programs of pairs of a lock and an unlock are safe in every schedule; a
program with two locks in a row is not.
-/

namespace VendorAmlogic.Lib

inductive LockEvent where
  | lock
  | unlock
  deriving DecidableEq

/-- The thread that holds the mutex, and what each thread has still to do. -/
structure Mutex where
  owner : Option Nat
  todo : Nat → List LockEvent

namespace Mutex

def init (progs : Nat → List LockEvent) : Mutex := ⟨none, progs⟩

/-- A thread goes on, unless it has to wait. -/
def step (m : Mutex) (t : Nat) : Mutex × Unit :=
  match m.todo t with
  | [] => (m, ())
  | .lock :: es =>
    if m.owner = none then (⟨some t, Function.update m.todo t es⟩, ()) else (m, ())
  | .unlock :: es =>
    (⟨if m.owner = some t then none else m.owner, Function.update m.todo t es⟩, ())

structure Safe (m : Mutex) : Prop where
  no_relock : ∀ t, (m.todo t).head? = some .lock → m.owner ≠ some t
  own_unlock : ∀ t, (m.todo t).head? = some .unlock → m.owner = some t

/-- Locks and unlocks in turn, beginning with a lock. -/
inductive Paired : List LockEvent → Prop
  | nil : Paired []
  | cons {es : List LockEvent} (h : Paired es) : Paired (.lock :: .unlock :: es)

theorem Paired.append {es es' : List LockEvent} (h : Paired es) (h' : Paired es') :
    Paired (es ++ es') := by
  induction h with
  | nil => exact h'
  | cons _ ih => exact .cons ih

theorem Paired.flatMap {α : Type*} {f : α → List LockEvent} {as : List α}
    (h : ∀ a ∈ as, Paired (f a)) : Paired (as.flatMap f) := by
  induction as with
  | nil => exact .nil
  | cons a as ih =>
    rw [List.flatMap_cons]
    exact (h a List.mem_cons_self).append (ih fun b hb => h b (List.mem_cons_of_mem _ hb))

/-- The owner has its unlock before it; every other thread has pairs. -/
structure Ok (m : Mutex) : Prop where
  owner : ∀ t, m.owner = some t → ∃ es, m.todo t = .unlock :: es ∧ Paired es
  others : ∀ t, m.owner ≠ some t → Paired (m.todo t)

theorem Ok.init {progs : Nat → List LockEvent} (h : ∀ t, Paired (progs t)) : (Mutex.init progs).Ok where
  owner := by simp [Mutex.init]
  others := fun t _ => h t

theorem Ok.safe {m : Mutex} (h : m.Ok) : m.Safe := by
  constructor
  · intro t hlock howner
    obtain ⟨es, htodo, -⟩ := h.owner t howner
    simp [htodo] at hlock
  · intro t hunlock
    by_contra howner
    have hp := h.others t howner
    cases hp' : m.todo t with
    | nil => simp [hp'] at hunlock
    | cons e es =>
      rw [hp'] at hunlock hp
      cases hp with
      | cons _ => simp at hunlock

theorem Ok.step {m : Mutex} (h : m.Ok) (t : Nat) : (m.step t).1.Ok := by
  unfold Mutex.step
  split
  · exact h
  · rename_i es htodo
    split
    · rename_i hnone
      have hfree : ∀ u, m.owner ≠ some u := by simp [hnone]
      have hpair := h.others t (hfree t)
      rw [htodo] at hpair
      cases hpair with
      | cons hes =>
        constructor
        · intro u hu
          obtain rfl : t = u := Option.some.inj hu
          exact ⟨_, Function.update_self .., hes⟩
        · intro u hu
          have hne : u ≠ t := fun heq => hu (congrArg some heq.symm)
          dsimp only
          rw [Function.update_of_ne hne]
          exact h.others u (hfree u)
    · exact h
  · rename_i es htodo
    have howner : m.owner = some t := by
      by_contra hno
      have hpair := h.others t hno
      rw [htodo] at hpair
      cases hpair
    obtain ⟨es', htodo', hpair⟩ := h.owner t howner
    obtain rfl : es = es' := (List.cons.inj (htodo.symm.trans htodo')).2
    rw [if_pos howner]
    refine ⟨by simp, fun u _ => ?_⟩
    dsimp only
    rcases eq_or_ne u t with rfl | hne
    · rw [Function.update_self]
      exact hpair
    · rw [Function.update_of_ne hne]
      refine h.others u fun heq => hne ?_
      exact (Option.some.inj (howner.symm.trans heq)).symm

/-- Programs of pairs are safe in every schedule. -/
theorem always_safe {progs : Nat → List LockEvent} (h : ∀ t, Paired (progs t)) (schedule : List Nat) :
    Always Safe step (.init progs) schedule := by
  have hstep : ∀ (m : Mutex) t, m.Ok → True → (m.step t).1.Ok := fun m t hm _ => hm.step t
  exact always_inv hstep (fun _ hm => hm.safe) (Ok.init h) (each_of_forall (fun _ _ => trivial) _ _)

/-- A thread that goes on alone through its pairs and then takes the mutex twice. -/
theorem not_always_safe {progs : Nat → List LockEvent} {t : Nat} {es rest : List LockEvent}
    (hes : Paired es) (h : progs t = es ++ .lock :: .lock :: rest) :
    ∃ schedule, ¬ Always Safe step (.init progs) schedule := by
  induction hes generalizing progs with
  | nil =>
    refine ⟨[t], fun hsafe => ?_⟩
    have hstep : ((init progs).step t).1 = ⟨some t, Function.update progs t (.lock :: rest)⟩ := by
      simp [step, init, h]
    have hlast : (((init progs).step t).1).Safe := hsafe.2
    rw [hstep] at hlast
    exact hlast.no_relock t (by simp) rfl
  | @cons es _ ih =>
    obtain ⟨schedule, hbad⟩ :=
      ih (Function.update_self t (es ++ LockEvent.lock :: .lock :: rest) progs)
    refine ⟨t :: t :: schedule, fun hsafe => hbad ?_⟩
    have hstep : (((((init progs).step t).1).step t).1) =
        init (Function.update progs t (es ++ .lock :: .lock :: rest)) := by
      simp [step, init, h]
    have hlast := hsafe.2.2
    rwa [hstep] at hlast

end Mutex

end VendorAmlogic.Lib
