import VendorAmlogic.BootEnv.Startup
import VendorAmlogic.Lib.Run
import VendorAmlogic.Lib.Mutex

/-!
# The U-Boot environment: the lock

What the entry points of `systemcontrol/ubootenv.c` do with `env_lock`, by the
way they take: the outcomes of the opens, reads and writes, and the branches
that depend on what is in memory. `read_bootenv` takes the lock for itself, and
so do `bootenv_update` and `bootenv_get`; `bootenv_reinit` keeps it over the
whole `bootenv_init`.
-/

namespace VendorAmlogic.BootEnv

open VendorAmlogic.Lib

/-! ## The source -/

/-- `read_bootenv`. -/
def readBootenvLocks : ReadResult → List LockEvent
  | .read => [.lock, .unlock]
  | _ => []

/-- The attempts of `bootenv_init`, up to the first one that succeeds. -/
def readLoopLocks : List ReadResult → List LockEvent
  | [] => []
  | r :: rs => readBootenvLocks r ++ if r.ret < 0 then readLoopLocks rs else []

/-- `bootenv_init`. -/
def bootenvInitLocks (device : Device) (dev : Fin 5 → ReadResult) : List LockEvent :=
  match device.error with
  | some _ => []
  | none => readLoopLocks (List.ofFn dev)

/-- The way through `bootenv_update`. -/
inductive UpdateWay where
  | notInit
  | notVarible
  | unchanged
  | saves (dev : Fin 5 → SaveResult)

/-- A call of an entry point. -/
inductive Entry where
  | init (device : Device) (dev : Fin 5 → ReadResult)
  | reinit (device : Device) (dev : Fin 5 → ReadResult)
  | update (way : UpdateWay)
  | get (varible : Bool)

/-- What an entry point does with the lock. -/
def Entry.locks : Entry → List LockEvent
  | .init device dev => bootenvInitLocks device dev
  | .reinit device dev => .lock :: bootenvInitLocks device dev ++ [.unlock]
  | .update (.saves _) => [.lock, .unlock]
  | .update _ => []
  | .get true => [.lock, .unlock]
  | .get false => []

/-! ## The discipline -/

/-- What the threads do, each with its calls in order. -/
def locksOf (calls : Nat → List Entry) (thread : Nat) : List LockEvent :=
  (calls thread).flatMap Entry.locks

/-- In every schedule no thread takes the lock while it holds it, none releases it while it does
not, and every call releases the lock as often as it has taken it. -/
structure Discipline (calls : Nat → List Entry) : Prop where
  safe : ∀ schedule, Always Mutex.Safe Mutex.step (.init (locksOf calls)) schedule
  released : ∀ thread, ∀ c ∈ calls thread, c.locks.count .lock = c.locks.count .unlock

/-- A call of `bootenv_reinit` does not read an image. -/
def Entry.Careful : Entry → Prop
  | .reinit device dev => ¬ Succeeds device dev
  | _ => True

/-! ## The entry points -/

theorem readLoopLocks_of_not_mem {rs : List ReadResult} (h : ReadResult.read ∉ rs) :
    readLoopLocks rs = [] := by
  induction rs with
  | nil => rfl
  | cons r rs ih =>
    have hr : r ≠ .read := fun heq => h (heq ▸ List.mem_cons_self)
    have hlocks : readBootenvLocks r = [] := by cases r <;> simp_all [readBootenvLocks]
    rw [readLoopLocks, hlocks, List.nil_append, ih fun hm => h (List.mem_cons_of_mem _ hm), ite_self]

theorem readLoopLocks_of_first {pre post : List ReadResult} (h : ReadResult.read ∉ pre) :
    readLoopLocks (pre ++ .read :: post) = [.lock, .unlock] := by
  induction pre with
  | nil => rfl
  | cons r pre ih =>
    have hr : r ≠ .read := fun heq => h (heq ▸ List.mem_cons_self)
    have hlocks : readBootenvLocks r = [] := by cases r <;> simp_all [readBootenvLocks]
    have hneg : r.ret < 0 := by cases r <;> simp_all [ReadResult.ret]
    rw [List.cons_append, readLoopLocks, hlocks, List.nil_append, if_pos hneg,
      ih fun hm => h (List.mem_cons_of_mem _ hm)]

theorem bootenvInitLocks_of_succeeds {device : Device} {dev : Fin 5 → ReadResult}
    (h : Succeeds device dev) : bootenvInitLocks device dev = [.lock, .unlock] := by
  obtain ⟨hdev, i, hi⟩ := h
  obtain ⟨pre, post, hsplit, hpre, -⟩ := exists_first hi
  rw [bootenvInitLocks, hdev]
  simp only [hsplit]
  exact readLoopLocks_of_first hpre

theorem bootenvInitLocks_of_not_succeeds {device : Device} {dev : Fin 5 → ReadResult}
    (h : ¬ Succeeds device dev) : bootenvInitLocks device dev = [] := by
  unfold bootenvInitLocks
  split
  · rfl
  · rename_i hdev
    refine readLoopLocks_of_not_mem fun hm => ?_
    obtain ⟨i, hi⟩ := List.mem_ofFn.1 hm
    exact h ⟨hdev, i, hi⟩

/-- A call takes the lock once and releases it, or does not take it. -/
theorem Entry.Careful.locks_eq {c : Entry} (h : c.Careful) :
    c.locks = [] ∨ c.locks = [.lock, .unlock] := by
  cases c with
  | init device dev =>
    by_cases hs : Succeeds device dev
    · exact .inr (bootenvInitLocks_of_succeeds hs)
    · exact .inl (bootenvInitLocks_of_not_succeeds hs)
  | reinit device dev =>
    right
    rw [Entry.locks, bootenvInitLocks_of_not_succeeds h]
    rfl
  | update way =>
    cases way with
    | notInit => exact .inl rfl
    | notVarible => exact .inl rfl
    | unchanged => exact .inl rfl
    | saves dev => exact .inr rfl
  | get varible =>
    cases varible with
    | false => exact .inl rfl
    | true => exact .inr rfl

theorem Entry.Careful.paired {c : Entry} (h : c.Careful) : Mutex.Paired c.locks := by
  rcases h.locks_eq with hl | hl
  · rw [hl]
    exact .nil
  · rw [hl]
    exact .cons .nil

/-- A call of `bootenv_reinit` that reads an image takes the lock twice. -/
theorem Entry.locks_of_not_careful {c : Entry} (h : ¬ c.Careful) :
    c.locks = [.lock, .lock, .unlock, .unlock] := by
  cases c with
  | reinit device dev =>
    rw [Entry.locks, bootenvInitLocks_of_succeeds (not_not.1 h)]
    rfl
  | init device dev => exact absurd trivial h
  | update way => exact absurd trivial h
  | get varible => exact absurd trivial h

/-- The first call of a list that is not careful. -/
theorem exists_first_not_careful {cs : List Entry} (h : ¬ ∀ c ∈ cs, c.Careful) :
    ∃ pre c post, cs = pre ++ c :: post ∧ (∀ c ∈ pre, c.Careful) ∧ ¬ c.Careful := by
  induction cs with
  | nil => simp at h
  | cons c cs ih =>
    by_cases hc : c.Careful
    · have hcs : ¬ ∀ c ∈ cs, c.Careful := fun hall => h fun d hd => by
        rcases List.mem_cons.1 hd with rfl | hd
        · exact hc
        · exact hall d hd
      obtain ⟨pre, d, post, rfl, hpre, hd⟩ := ih hcs
      refine ⟨c :: pre, d, post, rfl, fun e he => ?_, hd⟩
      rcases List.mem_cons.1 he with rfl | he
      · exact hc
      · exact hpre e he
    · exact ⟨[], c, cs, rfl, by simp, hc⟩

/-- The lock is used as it should be, in every schedule, exactly if no `bootenv_reinit` gets to read
an image. -/
theorem discipline_iff (calls : Nat → List Entry) :
    Discipline calls ↔ ∀ thread, ∀ c ∈ calls thread, c.Careful := by
  constructor
  · intro h thread
    by_contra hno
    obtain ⟨pre, c, post, hcalls, hpre, hc⟩ := exists_first_not_careful hno
    have hpaired : Mutex.Paired (pre.flatMap Entry.locks) :=
      Mutex.Paired.flatMap fun c hc => (hpre c hc).paired
    have hlocks : locksOf calls thread =
        pre.flatMap Entry.locks ++ .lock :: .lock :: (.unlock :: .unlock :: post.flatMap Entry.locks) := by
      simp [locksOf, hcalls, Entry.locks_of_not_careful hc]
    obtain ⟨schedule, hbad⟩ := Mutex.not_always_safe hpaired hlocks
    exact hbad (h.safe schedule)
  · intro h
    refine ⟨Mutex.always_safe fun thread => Mutex.Paired.flatMap fun c hc => (h thread c hc).paired, ?_⟩
    intro thread c hc
    rcases (h thread c hc).locks_eq with hl | hl <;> rw [hl] <;> rfl

/-- One thread that reads the environment in again, as the service does on a request. -/
theorem not_discipline_reinit :
    ¬ Discipline fun thread => if thread = 0 then [.reinit .blockEnv fun _ => .read] else [] := by
  intro h
  have hsafe := h.safe [0]
  have hlast := hsafe.2.no_relock 0 rfl
  exact hlast rfl

end VendorAmlogic.BootEnv
