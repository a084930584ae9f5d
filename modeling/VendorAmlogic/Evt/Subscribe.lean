import VendorAmlogic.Lib.Run

/-!
# Event subscriptions

The table of `am_evt/am_evt.c` and the threads that use it. Each section
between an acquire and a release of the lock is a step: `AM_EVT_Subscribe` has
two of them, the search for a subscription of the same callback and the
insertion, so a thread may be between them. Event types are not negative;
callbacks and their data are pointers.
-/

namespace VendorAmlogic.Evt

open VendorAmlogic.Lib

/-! ## The source -/

def AM_EVT_BUCKET_COUNT : Nat := 50

/-- `AM_Event_t`. -/
structure Event where
  devNo : Int
  type : Nat
  cb : Nat
  data : Nat
  deriving DecidableEq

/-- What a subscription is found by. -/
structure Key where
  devNo : Int
  type : Nat
  cb : Nat
  deriving DecidableEq

def Event.key (e : Event) : Key := ⟨e.devNo, e.type, e.cb⟩

/-- The table `events`, and the calls of `AM_EVT_Subscribe` between their two sections, with the
thread that makes them. -/
structure State where
  events : Fin AM_EVT_BUCKET_COUNT → List Event
  pending : List (Nat × Event) := []

def State.init : State := { events := fun _ => [] }

/-- `event_type % AM_EVT_BUCKET_COUNT`. -/
def pos (type : Nat) : Fin AM_EVT_BUCKET_COUNT :=
  ⟨type % AM_EVT_BUCKET_COUNT, Nat.mod_lt type (Nat.succ_pos 49)⟩

inductive Act where
  | check (thread : Nat) (e : Event) (alloc : Bool)
  | insert (thread : Nat)
  | unsubscribe (thread : Nat) (e : Event)
  | signal (thread : Nat) (devNo : Int) (type : Nat)
  deriving DecidableEq

/-- The call that a step ends, with its result or the callbacks it has made. -/
inductive Out where
  | none
  | subscribed (thread : Nat) (e : Event) (success : Bool)
  | unsubscribed (thread : Nat) (e : Event) (success : Bool)
  | signalled (devNo : Int) (type : Nat) (calls : List (Nat × Nat))
  deriving DecidableEq

/-- The search of `AM_EVT_Subscribe`, through all buckets. -/
def found (s : State) (e : Event) : Bool :=
  (List.finRange AM_EVT_BUCKET_COUNT).any fun i =>
    (s.events i).any fun e' => e'.devNo = e.devNo ∧ e'.cb = e.cb ∧ e'.type = e.type

/-- The callbacks that `AM_EVT_Signal` makes. -/
def callsOf (s : State) (devNo : Int) (type : Nat) : List (Nat × Nat) :=
  ((s.events (pos type)).filter fun e => e.devNo = devNo ∧ e.type = type).map fun e => (e.cb, e.data)

/-- A thread is in a call of `AM_EVT_Subscribe`. -/
def busy (s : State) (thread : Nat) : Bool := s.pending.any fun p => p.1 = thread

/-- A section of a thread; a thread between the sections of `AM_EVT_Subscribe` does only the
second one. -/
def step (s : State) : Act → State × Out
  | .check thread e alloc =>
    if busy s thread then (s, .none)
    else if found s e then (s, .subscribed thread e true)
    else if alloc then ({ s with pending := (thread, e) :: s.pending }, .none)
    else (s, .subscribed thread e false)
  | .insert thread =>
    match s.pending.find? fun p => p.1 = thread with
    | none => (s, .none)
    | some (_, e) =>
      ({ events := Function.update s.events (pos e.type) (e :: s.events (pos e.type)),
         pending := s.pending.filter fun p => p.1 ≠ thread }, .subscribed thread e true)
  | .unsubscribe thread e =>
    if busy s thread then (s, .none)
    else if e ∈ s.events (pos e.type) then
      ({ s with events := Function.update s.events (pos e.type) ((s.events (pos e.type)).erase e) },
        .unsubscribed thread e true)
    else (s, .unsubscribed thread e false)
  | .signal thread devNo type =>
    if busy s thread then (s, .none) else (s, .signalled devNo type (callsOf s devNo type))

/-! ## What subscribers rely on -/

/-- What a call that has succeeded says of a key. -/
def note (k : Key) (d : Option Nat) : Out → Option Nat
  | .subscribed _ e true => if e.key = k then some e.data else d
  | .unsubscribed _ e true => if e.key = k then none else d
  | _ => d

/-- The data of the last call on a key that has succeeded, if that was a subscription. -/
def subscribed (h : List Out) (k : Key) : Option Nat := h.foldl (note k) none

def entries (s : State) : List Event :=
  (List.finRange AM_EVT_BUCKET_COUNT).flatMap s.events

/-- What the calls before it require of a call. -/
def Due (h : List Out) : Out → Prop
  | .signalled devNo type calls =>
    ∀ cb data, calls.count (cb, data) = if subscribed h ⟨devNo, type, cb⟩ = some data then 1 else 0
  | .unsubscribed _ e success => subscribed h e.key = some e.data → success = true
  | _ => True

/-- A key has at most one entry; a signal calls each callback that is subscribed once, with its
data; the last subscription of a key can be taken back, and is then not called any more. -/
structure Orderly (acts : List Act) : Prop where
  unique : Always (fun s => ((entries s).map Event.key).Nodup) step .init acts
  due : ∀ h o rest, (run step .init acts).2 = h ++ o :: rest → Due h o
  gone : ∀ h thread e mid type calls rest,
    (run step .init acts).2 =
      h ++ .unsubscribed thread e true :: mid ++ .signalled e.devNo type calls :: rest →
    type = e.type → (∀ o ∈ mid, ∀ t e', o = .subscribed t e' true → e'.key ≠ e.key) →
    ∀ data, (e.cb, data) ∉ calls

/-- No call of `AM_EVT_Subscribe` begins while another thread is between its search and its
insertion for the same key, and none is for a key in the table with other data. -/
def Careful (s : State) : Act → Prop
  | .check thread e alloc => busy s thread = true ∨
    ((∀ e' ∈ s.events (pos e.type), e'.key = e.key → e'.data = e.data) ∧
      (alloc = true → ∀ p ∈ s.pending, p.2.key ≠ e.key))
  | _ => True

instance instDecidableCareful (s : State) : ∀ a, Decidable (Careful s a)
  | .check thread e alloc => inferInstanceAs (Decidable (busy s thread = true ∨
    ((∀ e' ∈ s.events (pos e.type), e'.key = e.key → e'.data = e.data) ∧
      (alloc = true → ∀ p ∈ s.pending, p.2.key ≠ e.key))))
  | .insert _ => isTrue trivial
  | .unsubscribe _ _ => isTrue trivial
  | .signal _ _ _ => isTrue trivial

/-! ## The invariant -/

/-- The table holds what the calls so far have left, each entry in its bucket; the calls between
their sections are for keys that have no entry. -/
structure Inv (s : State) (h : List Out) : Prop where
  placed : ∀ i, ∀ e ∈ s.events i, i = pos e.type
  nodup : ∀ i, ((s.events i).map Event.key).Nodup
  held : ∀ k d, subscribed h k = some d ↔ ∃ e ∈ s.events (pos k.type), e.key = k ∧ e.data = d
  pending_nodup : (s.pending.map fun p => p.2.key).Nodup
  pending_new : ∀ p ∈ s.pending, ∀ e ∈ s.events (pos p.2.type), e.key ≠ p.2.key

theorem inv_init : Inv (State.init : State) [] where
  placed := by simp [State.init]
  nodup := by simp [State.init]
  held := by simp [State.init, subscribed]
  pending_nodup := by simp [State.init]
  pending_new := by simp [State.init]

theorem subscribed_append (h : List Out) (o : Out) (k : Key) :
    subscribed (h ++ [o]) k = note k (subscribed h k) o := by
  simp [subscribed]

@[simp] theorem Event.key_type (e : Event) : e.key.type = e.type := rfl

theorem Event.ext_key {e e' : Event} (hk : e.key = e'.key) (hd : e.data = e'.data) :
    e = e' := by
  cases e; cases e'
  simp_all [Event.key]

variable {s : State} {h : List Out} {e : Event}

theorem Inv.found_iff (hi : Inv s h) (e : Event) :
    found s e = true ↔ ∃ e' ∈ s.events (pos e.type), e'.key = e.key := by
  simp only [found, List.any_eq_true, List.mem_finRange, true_and, decide_eq_true_eq]
  constructor
  · rintro ⟨i, e', he', hdev, hcb, htype⟩
    have hpos := hi.placed i e' he'
    refine ⟨e', ?_, by simp [Event.key, hdev, hcb, htype]⟩
    rwa [← htype, ← hpos]
  · rintro ⟨e', he', hkey⟩
    simp only [Event.key, Key.mk.injEq] at hkey
    exact ⟨_, e', he', hkey.1, hkey.2.2, hkey.2.1⟩

/-- Two entries of one key in a bucket are the same. -/
theorem Inv.eq_of_key (hi : Inv s h) {i : Fin AM_EVT_BUCKET_COUNT} {e e' : Event}
    (he : e ∈ s.events i) (he' : e' ∈ s.events i) (hk : e.key = e'.key) : e = e' :=
  List.inj_on_of_nodup_map (hi.nodup i) he he' hk

/-- A step that leaves the table and the calls between their sections as they are. -/
theorem Inv.same {o : Out} (hi : Inv s h)
    (ho : ∀ k, note k (subscribed h k) o = subscribed h k) : Inv s (h ++ [o]) where
  placed := hi.placed
  nodup := hi.nodup
  held := fun k d => by rw [subscribed_append, ho k, hi.held k d]
  pending_nodup := hi.pending_nodup
  pending_new := hi.pending_new

/-! ## The sections -/

theorem Inv.check (hi : Inv s h) {thread : Nat} {alloc : Bool}
    (hok : Careful s (.check thread e alloc)) :
    Inv (step s (.check thread e alloc)).1 (h ++ [(step s (.check thread e alloc)).2]) := by
  by_cases hb : busy s thread = true
  · rw [step, if_pos hb]
    exact hi.same fun _ => rfl
  rw [step, if_neg hb]
  obtain ⟨hdata, hpend⟩ := hok.resolve_left hb
  by_cases hf : found s e = true
  · rw [if_pos hf]
    obtain ⟨e', he', hkey⟩ := (hi.found_iff e).1 hf
    refine hi.same fun k => ?_
    by_cases hk : e.key = k
    · have hheld := (hi.held k e.data).2
        ⟨e', by rwa [← hk], by rw [hkey, hk], hdata e' he' hkey⟩
      rw [note, if_pos hk, hheld]
    · rw [note, if_neg hk]
  rw [if_neg hf]
  cases alloc with
  | false => exact hi.same fun _ => rfl
  | true =>
    have hnew : ∀ e' ∈ s.events (pos e.type), e'.key ≠ e.key :=
      fun e' he' hk => hf ((hi.found_iff e).2 ⟨e', he', hk⟩)
    refine ⟨hi.placed, hi.nodup, fun k d => ?_, ?_, ?_⟩
    · rw [if_pos rfl, subscribed_append]
      exact hi.held k d
    · rw [if_pos rfl]
      refine List.nodup_cons.2 ⟨fun hm => ?_, hi.pending_nodup⟩
      obtain ⟨p, hp, hkey⟩ := List.mem_map.1 hm
      exact hpend rfl p hp hkey
    · rw [if_pos rfl]
      intro p hp
      rcases List.mem_cons.1 hp with rfl | hp
      · exact hnew
      · exact hi.pending_new p hp

theorem mem_update_cons {t : Fin AM_EVT_BUCKET_COUNT → List Event} {e e' : Event}
    {i : Fin AM_EVT_BUCKET_COUNT} :
    e' ∈ Function.update t (pos e.type) (e :: t (pos e.type)) i ↔
      (i = pos e.type ∧ e' = e) ∨ e' ∈ t i := by
  rcases eq_or_ne i (pos e.type) with rfl | hne
  · simp
  · simp [hne]

theorem Inv.insert (hi : Inv s h) {thread : Nat} :
    Inv (step s (.insert thread)).1 (h ++ [(step s (.insert thread)).2]) := by
  rw [step]
  split
  · exact hi.same fun _ => rfl
  · rename_i t e hfind
    have hmem := List.mem_of_find?_eq_some hfind
    obtain rfl : t = thread := by simpa using List.find?_some hfind
    have hnew := hi.pending_new _ hmem
    refine ⟨fun i e' he' => ?_, fun i => ?_, fun k d => ?_, ?_, fun p hp e' he' => ?_⟩
    · rcases mem_update_cons.1 he' with ⟨rfl, rfl⟩ | he'
      · rfl
      · exact hi.placed i e' he'
    · dsimp only
      rcases eq_or_ne i (pos e.type) with rfl | hne
      · rw [Function.update_self, List.map_cons]
        refine List.nodup_cons.2 ⟨fun hm => ?_, hi.nodup _⟩
        obtain ⟨e', he', hkey⟩ := List.mem_map.1 hm
        exact hnew e' he' hkey
      · rw [Function.update_of_ne hne]
        exact hi.nodup i
    · rw [subscribed_append, note]
      by_cases hk : e.key = k
      · subst hk
        rw [if_pos rfl]
        constructor
        · intro hd
          exact ⟨e, mem_update_cons.2 (.inl ⟨rfl, rfl⟩), rfl, Option.some.inj hd⟩
        · rintro ⟨e', he', hkey, rfl⟩
          rcases mem_update_cons.1 he' with ⟨-, rfl⟩ | he'
          · rfl
          · exact absurd hkey (hnew e' he')
      · rw [if_neg hk, hi.held k d]
        constructor
        · rintro ⟨e', he', h'⟩
          exact ⟨e', mem_update_cons.2 (.inr he'), h'⟩
        · rintro ⟨e', he', hkey, h'⟩
          rcases mem_update_cons.1 he' with ⟨-, rfl⟩ | he'
          · exact absurd hkey hk
          · exact ⟨e', he', hkey, h'⟩
    · exact hi.pending_nodup.sublist (List.filter_sublist.map _)
    · obtain ⟨hps, hpt⟩ := List.mem_filter.1 hp
      rcases mem_update_cons.1 he' with ⟨-, rfl⟩ | he'
      · intro hkey
        have heq := List.inj_on_of_nodup_map hi.pending_nodup hmem hps hkey
        simp [← heq] at hpt
      · exact hi.pending_new p hps e' he'

/-- Removing an entry leaves the others. -/
theorem Inv.mem_update_erase (hi : Inv s h) {e' : Event} {i : Fin AM_EVT_BUCKET_COUNT} :
    e' ∈ Function.update s.events (pos e.type) ((s.events (pos e.type)).erase e) i ↔
      e' ∈ s.events i ∧ e' ≠ e := by
  rcases eq_or_ne i (pos e.type) with rfl | hne
  · rw [Function.update_self, (List.Nodup.of_map _ (hi.nodup _)).mem_erase_iff, and_comm]
  · rw [Function.update_of_ne hne]
    refine ⟨fun he' => ⟨he', ?_⟩, fun he' => he'.1⟩
    rintro rfl
    exact hne (hi.placed i _ he')

theorem Inv.unsubscribe (hi : Inv s h) {thread : Nat} :
    Inv (step s (.unsubscribe thread e)).1 (h ++ [(step s (.unsubscribe thread e)).2]) ∧
      Due h (step s (.unsubscribe thread e)).2 := by
  rw [step]
  split
  · exact ⟨hi.same fun _ => rfl, trivial⟩
  split
  · rename_i he
    refine ⟨⟨fun i e' he' => ?_, fun i => ?_, fun k d => ?_, hi.pending_nodup, ?_⟩, fun _ => rfl⟩
    · exact hi.placed i e' (hi.mem_update_erase.1 he').1
    · dsimp only
      rcases eq_or_ne i (pos e.type) with rfl | hne
      · rw [Function.update_self]
        exact (hi.nodup _).sublist (List.erase_sublist.map _)
      · rw [Function.update_of_ne hne]
        exact hi.nodup i
    · rw [subscribed_append, note]
      by_cases hk : e.key = k
      · subst hk
        rw [if_pos rfl]
        refine iff_of_false (by simp) ?_
        rintro ⟨e', he', hkey, -⟩
        obtain ⟨he', hne⟩ := hi.mem_update_erase.1 he'
        exact hne (hi.eq_of_key he' he hkey)
      · rw [if_neg hk, hi.held k d]
        constructor
        · rintro ⟨e', he', hkey, h'⟩
          refine ⟨e', hi.mem_update_erase.2 ⟨he', ?_⟩, hkey, h'⟩
          rintro rfl
          exact hk hkey
        · rintro ⟨e', he', h'⟩
          exact ⟨e', (hi.mem_update_erase.1 he').1, h'⟩
    · exact fun p hp e' he' => hi.pending_new p hp e' (hi.mem_update_erase.1 he').1
  · rename_i he
    refine ⟨hi.same fun _ => rfl, fun hs => ?_⟩
    obtain ⟨e', he', hkey, hdata⟩ := (hi.held e.key e.data).1 hs
    obtain rfl := Event.ext_key hkey hdata
    exact absurd he' he

/-- A callback is called as often as its entry is in the bucket. -/
theorem count_callsOf (s : State) (devNo : Int) (type cb data : Nat) :
    (callsOf s devNo type).count (cb, data) =
      (s.events (pos type)).count ⟨devNo, type, cb, data⟩ := by
  rw [callsOf, List.count, List.countP_map, List.countP_filter, List.count]
  refine List.countP_congr fun e _ => ?_
  cases e
  simp only [Function.comp, beq_iff_eq, Prod.mk.injEq, Bool.and_eq_true, decide_eq_true_eq,
    Event.mk.injEq]
  tauto

theorem Inv.signal (hi : Inv s h) {thread : Nat} {devNo : Int} {type : Nat} :
    Inv (step s (.signal thread devNo type)).1 (h ++ [(step s (.signal thread devNo type)).2]) ∧
      Due h (step s (.signal thread devNo type)).2 := by
  rw [step]
  split
  · exact ⟨hi.same fun _ => rfl, trivial⟩
  refine ⟨hi.same fun _ => rfl, fun cb data => ?_⟩
  have hnd : (s.events (pos type)).Nodup := List.Nodup.of_map _ (hi.nodup _)
  have hmem : (⟨devNo, type, cb, data⟩ : Event) ∈ s.events (pos type) ↔
      subscribed h ⟨devNo, type, cb⟩ = some data := by
    rw [hi.held]
    constructor
    · exact fun he => ⟨_, he, rfl, rfl⟩
    · rintro ⟨e, he, hkey, hdata⟩
      have heq : e = ⟨devNo, type, cb, data⟩ := Event.ext_key hkey hdata
      rwa [← heq]
  rw [count_callsOf, List.Nodup.count hnd]
  simp only [hmem]

/-- A careful section keeps the invariant, and ends its call as the calls before it require. -/
theorem Inv.step (hi : Inv s h) {a : Act} (hok : Careful s a) :
    Inv (step s a).1 (h ++ [(Evt.step s a).2]) ∧ Due h (Evt.step s a).2 := by
  cases a with
  | check thread e alloc =>
    refine ⟨hi.check hok, ?_⟩
    rw [Evt.step]
    split
    · trivial
    · split
      · trivial
      · split <;> trivial
  | insert thread =>
    refine ⟨hi.insert, ?_⟩
    rw [Evt.step]
    split <;> trivial
  | unsubscribe thread e => exact hi.unsubscribe
  | signal thread devNo type => exact hi.signal

/-! ## Runs -/

theorem Inv.entries_nodup (hi : Inv s h) : ((entries s).map Event.key).Nodup := by
  rw [entries, List.map_flatMap, List.nodup_flatMap]
  refine ⟨fun i _ => hi.nodup i, (List.nodup_finRange _).imp fun {i j} hne => ?_⟩
  intro k hk hk'
  obtain ⟨e, he, rfl⟩ := List.mem_map.1 hk
  obtain ⟨e', he', hkey⟩ := List.mem_map.1 hk'
  have htype : e'.type = e.type := congrArg Key.type hkey
  exact hne (by rw [hi.placed i e he, hi.placed j e' he', htype])

/-- A key that is not subscribed stays so until it is subscribed again. -/
theorem subscribed_eq_none {h mid : List Out} {k : Key} (hn : subscribed h k = none)
    (hmid : ∀ o ∈ mid, ∀ t e, o = .subscribed t e true → e.key ≠ k) :
    subscribed (h ++ mid) k = none := by
  induction mid generalizing h with
  | nil => rwa [List.append_nil]
  | cons o mid ih =>
    rw [List.append_cons]
    refine ih ?_ fun o' ho' => hmid o' (List.mem_cons_of_mem _ ho')
    rw [subscribed_append, hn]
    have ho := hmid o List.mem_cons_self
    unfold note
    split
    · rename_i t e
      rw [if_neg (ho t e rfl)]
    · simp
    · rfl

/-- In every interleaving of careful sections the subscriptions are in order. -/
theorem orderly_of_careful (acts : List Act) (hok : Each Careful step .init acts) :
    Orderly acts := by
  have hdue : ∀ h o rest, (run step .init acts).2 = h ++ o :: rest → Due h o := by
    intro h o rest hsplit
    have hstep : ∀ s h a, Inv s h → Careful s a →
        Inv (step s a).1 (h ++ [(step s a).2]) ∧ Due h (step s a).2 := fun s h a hi => hi.step
    simpa using run_hist hstep inv_init hok hsplit
  refine ⟨?_, hdue, ?_⟩
  · have hstep : ∀ s a, (∃ h, Inv s h) → Careful s a → ∃ h, Inv (step s a).1 h :=
      fun s a ⟨h, hi⟩ ha => ⟨_, (hi.step ha).1⟩
    exact always_inv hstep (fun s ⟨h, hi⟩ => hi.entries_nodup) ⟨[], inv_init⟩ hok
  · rintro h thread e mid type calls rest hsplit rfl hmid data hcall
    have hd := hdue _ _ _ hsplit e.cb data
    have hnone : subscribed (h ++ .unsubscribed thread e true :: mid) e.key = none := by
      rw [List.append_cons]
      exact subscribed_eq_none (by simp [subscribed_append, note]) hmid
    have hkey : (⟨e.devNo, e.type, e.cb⟩ : Key) = e.key := rfl
    rw [hkey, hnone, if_neg (by simp)] at hd
    exact absurd hcall (List.count_eq_zero.1 hd)

/-- Two threads subscribe to one event, the first one also after the other. -/
def politeActs : List Act :=
  [.check 1 ⟨0, 7, 100, 1⟩ true, .insert 1, .check 2 ⟨0, 57, 200, 2⟩ true, .signal 3 0 7, .insert 2,
    .check 2 ⟨0, 7, 100, 1⟩ true, .signal 3 0 57, .unsubscribe 1 ⟨0, 7, 100, 1⟩, .signal 3 0 7]

theorem orderly_politeActs : Orderly politeActs :=
  orderly_of_careful politeActs (by decide)

/-- Two threads that subscribe one callback at once both insert it. -/
theorem not_orderly_racing :
    ¬ Orderly [.check 1 ⟨0, 7, 100, 1⟩ true, .check 2 ⟨0, 7, 100, 1⟩ true, .insert 1, .insert 2] := by
  intro h
  have hnodup := h.unique.2.2.2.2
  revert hnodup
  unfold Always
  decide

end VendorAmlogic.Evt
