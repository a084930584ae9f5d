import Mathlib.Tactic
import VendorAmlogic.Demux.DmxApi

/-!
# What the calls do with the filters

`AM_DMX_AllocateFilter` and the frees of `AM_DMX_Close` beside the calls with a handle, and what
every one of them may do with the table of the filters, for a driver that touches no more of a
filter than its private data: only `AM_DMX_StartFilter` enables a filter, only
`AM_DMX_SetCallback` replaces a callback, what stops a filter leaves it stopped, and no filter is
given back that is still enabled.
-/

namespace VendorAmlogic.Demux.Api

open VendorAmlogic.Lib

variable {N : Nat} {σ : Type}

def errNoFreeFilter : Int := 2 ^ 24 + 8

/-! ## Allocating and closing -/

/-- A function of a driver that is not about one filter. -/
abbrev DevFn (σ : Type) := Device σ → Option (Device σ × Int)

/-- The functions of `AM_DMX_Driver_t` that the interface calls. -/
structure DmxDriver (σ : Type) extends Driver σ where
  openDev : Option (DevFn σ)
  closeDev : Option (DevFn σ)
  allocFilter : Option (DrvFn σ)

/-- `AM_DMX_AllocateFilter`: the error code and `*fhandle`. -/
def amDmxAllocateFilter (drv : Fin N → DmxDriver σ) (devNo : Int) :
    DmxM N σ (Int × Option (Fin 32)) := do
  match ← dmxGetOpennedDev devNo with
  | .error e => return (e, none)
  | .ok dev =>
    mutexLock dev
    let s ← get
    let r ← match (List.finRange 32).find? fun fid => ! ((s.devs dev).filters fid).used with
      | none => pure (errNoFreeFilter, none)
      | some fid => do
        let f ← getFilter dev fid
        setFilter dev fid { f with id := (fid : Nat) }
        let ret ← match (drv dev).allocFilter with
          | some fn => callDrv dev fn fid
          | none => pure 0
        if ret = 0 then
          let f ← getFilter dev fid
          setFilter dev fid { f with used := true }
          pure (ret, some fid)
        else pure (ret, none)
    mutexUnlock dev
    return r

/-- The loop of `AM_DMX_Close` over the filters. -/
def freeAll (drv : Driver σ) (dev : Fin N) : List (Fin 32) → DmxM N σ Unit
  | [] => pure ()
  | i :: is => do
    let _ ← dmxFreeFilter drv dev i
    freeAll drv dev is

/-- A call on the one device: its result and the device after it. -/
def onDevice {α : Type} (x : DmxM 1 σ α) (d : Device σ) : Option (α × Device σ) :=
  (x (entry fun _ => d)).map fun r => (r.1, r.2.devs 0)

def callFn (drv : DmxDriver σ) (fhandle : Int) (c : Call) : Device σ → Option (Int × Device σ) :=
  onDevice (c.run (fun _ => drv.toDriver) 0 fhandle)

def allocateFn (drv : DmxDriver σ) : Device σ → Option ((Int × Option (Fin 32)) × Device σ) :=
  onDevice (amDmxAllocateFilter (fun _ => drv) 0)

def freeFn (drv : DmxDriver σ) : Device σ → Option (Unit × Device σ) :=
  onDevice (freeAll drv.toDriver 0 (List.finRange 32))

/-- `dev->drv->fn(dev)`, where the driver may have no such function. -/
def callDev (fn : Option (DevFn σ)) (d : Device σ) : Option (Device σ × Int) :=
  match fn with
  | some fn => fn d
  | none => some (d, 0)

/-! ## What a call does with the filters -/

/-- What the drivers leave alone of a filter. -/
structure Entry where
  used : Bool
  enable : Bool
  cb : Ptr
  userData : Ptr

def Filter.entry (f : Filter) : Entry := ⟨f.used, f.enable, f.cb, f.userData⟩

def Device.table (d : Device σ) (i : Fin 32) : Entry := (d.filters i).entry

/-- A function of a driver touches no more of a filter than its private data, and not the number of
times that the device is open. -/
def DrvFn.Keeps (fn : DrvFn σ) : Prop :=
  ∀ d i d' ret, fn d i = some (d', ret) → d'.table = d.table ∧ d'.openCount = d.openCount

def DevFn.Keeps (fn : DevFn σ) : Prop :=
  ∀ d d' ret, fn d = some (d', ret) → d'.table = d.table ∧ d'.openCount = d.openCount

structure Driver.Keeps (drv : Driver σ) : Prop where
  freeFilter : ∀ fn ∈ drv.freeFilter, DrvFn.Keeps fn
  setSecFilter : ∀ fn ∈ drv.setSecFilter, ∀ params, DrvFn.Keeps (fn params)
  setPesFilter : ∀ fn ∈ drv.setPesFilter, ∀ params, DrvFn.Keeps (fn params)
  enableFilter : ∀ fn ∈ drv.enableFilter, ∀ on, DrvFn.Keeps (fn on)
  setBufSize : ∀ fn ∈ drv.setBufSize, ∀ size, DrvFn.Keeps (fn size)

structure DmxDriver.Keeps (drv : DmxDriver σ) : Prop where
  base : drv.toDriver.Keeps
  openDev : ∀ fn ∈ drv.openDev, DevFn.Keeps fn
  closeDev : ∀ fn ∈ drv.closeDev, DevFn.Keeps fn
  allocFilter : ∀ fn ∈ drv.allocFilter, DrvFn.Keeps fn

/-- What may come of one filter of a device. `starts` and `cb` say whether a filter may be enabled
and whether its callback may be replaced; no filter is given back that is still enabled. -/
structure Entry.Goes (starts resets : Prop) (e e' : Entry) : Prop where
  enable : e'.enable = true → e.enable = true ∨ starts
  cb : e'.cb = e.cb ∧ e'.userData = e.userData ∨ resets
  settled : (e.used = false → e.enable = false) → e'.used = false → e'.enable = false

section
variable {starts resets starts' resets' : Prop} {e e' e'' : Entry}

theorem Entry.Goes.rfl' : e.Goes starts resets e := ⟨fun h => .inl h, .inl ⟨rfl, rfl⟩, fun h => h⟩

theorem Entry.Goes.of_eq (h : e' = e) : e.Goes starts resets e' := h ▸ Entry.Goes.rfl'

theorem Entry.Goes.trans (h : e.Goes starts resets e') (h' : e'.Goes starts resets e'') :
    e.Goes starts resets e'' where
  enable := fun hon => (h'.enable hon).elim h.enable .inr
  cb := by
    rcases h.cb with ⟨hcb, hdata⟩ | hr
    · exact h'.cb.imp_left fun hc => ⟨hc.1.trans hcb, hc.2.trans hdata⟩
    · exact .inr hr
  settled := fun hs => h'.settled (h.settled hs)

theorem Entry.Goes.mono (hs : starts → starts') (hr : resets → resets') (h : e.Goes starts resets e') :
    e.Goes starts' resets' e' :=
  ⟨fun hon => (h.enable hon).imp_right hs, h.cb.imp_right hr, h.settled⟩

theorem Entry.Goes.disabled : e.Goes starts resets { e with enable := false } :=
  ⟨fun h => (Bool.false_ne_true h).elim, .inl ⟨rfl, rfl⟩, fun _ _ => rfl⟩

end

section
variable {dev : Fin N} {i : Fin 32} {s t : St N σ} {ret : Int}

/-- What the filters of a device are to the calls. -/
def St.table (s : St N σ) (dev : Fin N) : Fin 32 → Entry := (s.devs dev).table

theorem bind_eq_some {α β : Type} {x : DmxM N σ α} {f : α → DmxM N σ β} {r : β × St N σ} :
    (x >>= f) s = some r ↔ ∃ a t, x s = some (a, t) ∧ f a t = some r := by
  rw [bind_apply, Option.bind_eq_some_iff]
  exact ⟨fun ⟨p, h, h'⟩ => ⟨p.1, p.2, h, h'⟩, fun ⟨a, t, h, h'⟩ => ⟨(a, t), h, h'⟩⟩

theorem pure_eq_some {α : Type} {a b : α} : (pure a : DmxM N σ α) s = some (b, t) ↔ a = b ∧ s = t := by
  rw [pure_apply, Option.some_inj, Prod.mk.injEq]

theorem getFilter_apply : getFilter dev i s = some ((s.devs dev).filters i, s) := rfl

theorem setFilter_table (f : Filter) (h : setFilter dev i f s = some ((), t)) :
    t.table dev = Function.update (s.table dev) i f.entry := by
  obtain rfl := congrArg Prod.snd (Option.some.inj h)
  funext j
  unfold St.table Device.table
  change (((Function.update s.devs dev ((s.devs dev).setFilter i f)) dev).filters j).entry = _
  rw [Function.update_self]
  change (Function.update (s.devs dev).filters i f j).entry = _
  by_cases hj : j = i
  · rw [hj, Function.update_self, Function.update_self]
  · rw [Function.update_of_ne hj, Function.update_of_ne hj]

theorem callDrv_eq_some {fn : DrvFn σ} (h : callDrv dev fn i s = some (ret, t)) :
    ∃ d, fn (s.devs dev) i = some (d, ret) ∧ t = { s with devs := Function.update s.devs dev d } := by
  unfold callDrv at h
  obtain ⟨_, _, hget, h⟩ := bind_eq_some.mp h
  obtain ⟨rfl, rfl⟩ := Prod.mk.inj (Option.some.inj hget)
  obtain ⟨r, _, hlift, h⟩ := bind_eq_some.mp h
  obtain ⟨_, hr, hret⟩ := Option.bind_eq_some_iff.mp hlift
  obtain ⟨rfl, rfl⟩ := Prod.mk.inj (Option.some.inj hret)
  obtain ⟨rfl, rfl⟩ := Prod.mk.inj (Option.some.inj h)
  exact ⟨_, hr, rfl⟩

theorem callDrv_table {fn : DrvFn σ} (hk : fn.Keeps) (h : callDrv dev fn i s = some (ret, t)) :
    t.table dev = s.table dev := by
  obtain ⟨d, hd, rfl⟩ := callDrv_eq_some h
  change (Function.update s.devs dev d dev).table = (s.devs dev).table
  rw [Function.update_self]
  exact (hk _ i d ret hd).1

end

/-- What may come of the filters of a device. -/
def Touches (starts resets : Fin 32 → Prop) (T T' : Fin 32 → Entry) : Prop :=
  ∀ j, (T j).Goes (starts j) (resets j) (T' j)

section
variable {starts resets : Fin 32 → Prop} {T T' T'' : Fin 32 → Entry}

theorem Touches.of_eq (h : T' = T) : Touches starts resets T T' := fun j =>
  .of_eq (congrFun h j)

theorem Touches.trans (h : Touches starts resets T T') (h' : Touches starts resets T' T'') :
    Touches starts resets T T'' := fun j => (h j).trans (h' j)

theorem Touches.update {i : Fin 32} {e : Entry} (h : (T i).Goes (starts i) (resets i) e) :
    Touches starts resets T (Function.update T i e) := by
  intro j
  by_cases hj : j = i
  · subst hj
    rwa [Function.update_self]
  · rw [Function.update_of_ne hj]
    exact .rfl'

theorem Touches.mono {starts' resets' : Fin 32 → Prop} (hs : ∀ j, starts j → starts' j)
    (hr : ∀ j, resets j → resets' j) (h : Touches starts resets T T') : Touches starts' resets' T T' :=
  fun j => (h j).mono (hs j) (hr j)

end

/-- No filter is enabled, and no callback is replaced. -/
abbrev Quiets : (T T' : Fin 32 → Entry) → Prop := Touches (fun _ => False) fun _ => False

section
variable {drv : Driver σ} {dev : Fin N} {i : Fin 32} {s t : St N σ} {ret : Int}

/-- The end of a function that alters its filter if it may, and goes on with `k`. -/
theorem setIf_spec {α : Type} {p : Prop} [Decidable p] {g : Filter → Filter} {k : DmxM N σ α}
    {r : α × St N σ}
    (h : (if p then getFilter dev i >>= fun f => setFilter dev i (g f) >>= fun _ => k else k) s =
      some r) :
    ∃ u, k u = some r ∧
      (p ∧ u.table dev = Function.update (s.table dev) i (g ((s.devs dev).filters i)).entry ∨
        ¬ p ∧ u.table dev = s.table dev) := by
  by_cases hp : p
  · rw [if_pos hp] at h
    obtain ⟨_, _, hget, h⟩ := bind_eq_some.mp h
    obtain ⟨rfl, rfl⟩ := Prod.mk.inj (Option.some.inj hget)
    obtain ⟨_, u, hset, h⟩ := bind_eq_some.mp h
    exact ⟨u, h, .inl ⟨hp, setFilter_table _ hset⟩⟩
  · rw [if_neg hp] at h
    exact ⟨s, h, .inr ⟨hp, rfl⟩⟩

/-- A filter that `dmx_stop_filter` has stopped is not enabled, and stays allocated. -/
theorem dmxStopFilter_spec (hk : drv.Keeps) (h : dmxStopFilter drv dev i s = some (ret, t)) :
    Quiets (s.table dev) (t.table dev) ∧ (t.table dev i).used = (s.table dev i).used ∧
      (ret = 0 → (s.table dev i).used = true → (t.table dev i).enable = false) := by
  -- the end of the function, after the driver was asked
  have htail : ∀ {r : Int} {u : St N σ}, u.table dev = s.table dev →
      (if r ≥ 0 then getFilter dev i >>= fun f => setFilter dev i { f with enable := false } >>=
        fun _ => pure r else pure r : DmxM N σ Int) u = some (ret, t) →
      Quiets (s.table dev) (t.table dev) ∧ (t.table dev i).used = (s.table dev i).used ∧
        (ret = 0 → (s.table dev i).used = true → (t.table dev i).enable = false) := by
    intro r u hu h
    obtain ⟨w, hpure, hset⟩ := setIf_spec h
    obtain ⟨rfl, rfl⟩ := pure_eq_some.mp hpure
    obtain ⟨-, ht⟩ | ⟨hr, ht⟩ := hset
    · change w.table dev = Function.update (u.table dev) i { u.table dev i with enable := false } at ht
      rw [hu] at ht
      rw [ht]
      refine ⟨Touches.update .disabled, ?_, fun _ _ => ?_⟩ <;> rw [Function.update_self]
    · rw [ht, hu]
      exact ⟨.of_eq rfl, rfl, fun h0 => absurd h0 (by omega)⟩
  unfold dmxStopFilter at h
  obtain ⟨_, _, hget, h⟩ := bind_eq_some.mp h
  obtain ⟨rfl, rfl⟩ := Prod.mk.inj (Option.some.inj hget)
  split at h
  next hoff =>
    obtain ⟨rfl, rfl⟩ := pure_eq_some.mp h
    refine ⟨.of_eq rfl, rfl, fun _ hused => ?_⟩
    change ((s.devs dev).filters i).used = true at hused
    change ((s.devs dev).filters i).enable = false
    simpa [hused] using hoff
  next =>
    cases hfn : drv.enableFilter with
    | none =>
      rw [hfn] at h
      obtain ⟨_, _, hr, h⟩ := bind_eq_some.mp h
      obtain ⟨rfl, rfl⟩ := pure_eq_some.mp hr
      exact htail rfl h
    | some fn =>
      rw [hfn] at h
      obtain ⟨r, u, hcall, h⟩ := bind_eq_some.mp h
      exact htail (callDrv_table (hk.enableFilter fn hfn false) hcall) h

/-- `dmx_free_filter` gives back no filter that is still enabled. -/
theorem dmxFreeFilter_spec (hk : drv.Keeps) (h : dmxFreeFilter drv dev i s = some (ret, t)) :
    Quiets (s.table dev) (t.table dev) ∧
      (ret = 0 → (s.table dev i).used = true → (t.table dev i).enable = false) := by
  unfold dmxFreeFilter at h
  obtain ⟨_, _, hget, h⟩ := bind_eq_some.mp h
  obtain ⟨rfl, rfl⟩ := Prod.mk.inj (Option.some.inj hget)
  split at h
  next hfree =>
    obtain ⟨rfl, rfl⟩ := pure_eq_some.mp h
    refine ⟨.of_eq rfl, fun _ hused => ?_⟩
    change ((s.devs dev).filters i).used = true at hused
    simp [hused] at hfree
  next hused =>
    obtain ⟨stopped, u, hstop, h⟩ := bind_eq_some.mp h
    obtain ⟨hquiet, -, hoff⟩ := dmxStopFilter_spec hk hstop
    have hused : (s.table dev i).used = true := by
      change ((s.devs dev).filters i).used = true
      simpa using hused
    -- the filter is given back only when it was stopped
    have htail : ∀ {r : Int} {v : St N σ}, v.table dev = u.table dev → (r = 0 → stopped = 0) →
        (if r = 0 then getFilter dev i >>= fun f => setFilter dev i { f with used := false } >>=
          fun _ => pure r else pure r : DmxM N σ Int) v = some (ret, t) →
        Quiets (s.table dev) (t.table dev) ∧
          (ret = 0 → (s.table dev i).used = true → (t.table dev i).enable = false) := by
      intro r v hv hr h
      obtain ⟨w, hpure, hset⟩ := setIf_spec h
      obtain ⟨rfl, rfl⟩ := pure_eq_some.mp hpure
      obtain ⟨h0, ht⟩ | ⟨h0, ht⟩ := hset
      · have hdis : (u.table dev i).enable = false := hoff (hr h0) hused
        change w.table dev = Function.update (v.table dev) i { v.table dev i with used := false } at ht
        rw [hv] at ht
        rw [ht]
        refine ⟨hquiet.trans (Touches.update ?_), fun _ _ => ?_⟩
        · exact ⟨fun hon => .inl hon, .inl ⟨rfl, rfl⟩, fun _ _ => hdis⟩
        · rw [Function.update_self]
          exact hdis
      · exact ⟨hquiet.trans (.of_eq (ht.trans hv)), fun hret => absurd hret h0⟩
    cases hfn : drv.freeFilter with
    | none =>
      rw [hfn] at h
      obtain ⟨_, _, hr, h⟩ := bind_eq_some.mp h
      obtain ⟨rfl, rfl⟩ := pure_eq_some.mp hr
      exact htail rfl id h
    | some fn =>
      rw [hfn] at h
      dsimp only at h
      split at h
      next h0 =>
        obtain ⟨r, v, hcall, h⟩ := bind_eq_some.mp h
        exact htail (callDrv_table (hk.freeFilter fn hfn) hcall) (fun _ => h0) h
      next h0 =>
        obtain ⟨_, _, hr, h⟩ := bind_eq_some.mp h
        obtain ⟨rfl, rfl⟩ := pure_eq_some.mp hr
        exact htail rfl id h

end

/-- A call that leaves its filter stopped when it succeeds. -/
def Call.stops : Call → Bool
  | .setSecFilter _ | .setPesFilter _ | .freeFilter | .stopFilter => true
  | _ => false

def Call.starts : Call → Bool
  | .startFilter => true
  | _ => false

def Call.resets : Call → Bool
  | .setCallback _ _ => true
  | _ => false

/-- What a call makes of the filters of its device. -/
structure Call.Does (c : Call) (fhandle ret : Int) (T T' : Fin 32 → Entry) : Prop where
  touches : Touches (fun j => c.starts = true ∧ fhandle = j) (fun j => c.resets = true ∧ fhandle = j) T T'
  stopped : c.stops = true → ret = 0 → ∀ j : Fin 32, fhandle = j → (T' j).enable = false
  reset : ∀ cb data, c = .setCallback cb data → ret = 0 → ∀ j : Fin 32, fhandle = j →
    (T' j).cb = cb ∧ (T' j).userData = data

theorem Call.Does.of_failed {c : Call} {fhandle ret : Int} {T T' : Fin 32 → Entry} (hret : ret ≠ 0)
    (hT : T' = T) : c.Does fhandle ret T T' :=
  ⟨.of_eq hT, fun _ h => absurd h hret, fun _ _ _ h => absurd h hret⟩

section
variable {drv : Fin N → Driver σ} {devs : Fin N → Device σ} {dev : Fin N} {i : Fin 32} {t : St N σ}
  {ret : Int}

theorem dmxGetUsedFilter_ok {s : St N σ} (h : (s.table dev i).used = true) :
    dmxGetUsedFilter dev i s = some ((0, some i), s) := by
  unfold dmxGetUsedFilter
  have hi := i.isLt
  rw [dif_neg (by omega)]
  change (if ! ((s.devs dev).filters i).used then _ else _ : DmxM N σ _) s = _
  rw [show ((s.devs dev).filters i).used = true from h]
  rfl

theorem deref_some {s : St N σ} : (deref (some i) : DmxM N σ (Fin 32)) s = some (i, s) := rfl

theorem mutexUnlock_apply {s : St N σ} :
    mutexUnlock dev s = some ((), { s with held := Function.update s.held dev false }) := rfl

theorem setWith_spec (hk : (drv dev).Keeps) (hopen : 0 < (devs dev).openCount)
    (hused : ((devs dev).table i).used = true) {fn : Driver σ → Option (DrvFn σ)}
    (hfn : ∀ f ∈ fn (drv dev), f.Keeps) (h : setWith drv fn dev i (entry devs) = some (ret, t)) :
    Quiets (devs dev).table (t.table dev) ∧ (ret = 0 → (t.table dev i).enable = false) := by
  have hdev : dmxGetOpennedDev dev (entry devs) = some (.ok dev, entry devs) :=
    dmxGetOpennedDev_ok hopen
  have hlook : dmxGetUsedFilter dev i (locked devs dev) = some ((0, some i), locked devs dev) :=
    dmxGetUsedFilter_ok hused
  cases hf : fn (drv dev) with
  | none =>
    simp only [setWith, bind_apply, hdev, Option.bind_some, hf, pure_apply, Option.some.injEq,
      Prod.mk.injEq] at h
    obtain ⟨rfl, rfl⟩ := h
    exact ⟨.of_eq rfl, fun h => absurd h (by decide)⟩
  | some f =>
    simp only [setWith, bind_apply, hdev, Option.bind_some, hf, mutexLock_entry, hlook, if_pos,
      deref_some] at h
    obtain ⟨⟨r, u⟩, hstop, h⟩ := Option.bind_eq_some_iff.mp h
    obtain ⟨hquiet, -, hoff⟩ := dmxStopFilter_spec hk hstop
    by_cases hr : r = 0
    · rw [if_pos hr] at h
      simp only [bind_apply, deref_some, Option.bind_some] at h
      obtain ⟨⟨r', v⟩, hcall, h⟩ := Option.bind_eq_some_iff.mp h
      simp only [mutexUnlock_apply, Option.bind_some, pure_apply, Option.some.injEq, Prod.mk.injEq] at h
      obtain ⟨rfl, rfl⟩ := h
      have hv : v.table dev = u.table dev := callDrv_table (hfn f hf) hcall
      refine ⟨hquiet.trans (.of_eq hv), fun _ => ?_⟩
      exact (congrArg Entry.enable (congrFun hv i)).trans (hoff hr hused)
    · rw [if_neg hr] at h
      simp only [bind_apply, mutexUnlock_apply, Option.bind_some, pure_apply, Option.some.injEq,
        Prod.mk.injEq] at h
      obtain ⟨rfl, rfl⟩ := h
      exact ⟨hquiet, fun h0 => absurd h0 hr⟩

theorem startFilter_spec (hk : (drv dev).Keeps) (hopen : 0 < (devs dev).openCount)
    (hused : ((devs dev).table i).used = true)
    (h : amDmxStartFilter drv dev i (entry devs) = some (ret, t)) :
    Touches (fun j => j = i) (fun _ => False) (devs dev).table (t.table dev) := by
  have hdev : dmxGetOpennedDev dev (entry devs) = some (.ok dev, entry devs) :=
    dmxGetOpennedDev_ok hopen
  have hlook : dmxGetUsedFilter dev i (locked devs dev) = some ((0, some i), locked devs dev) :=
    dmxGetUsedFilter_ok hused
  -- the end of the function, after the driver was asked
  have htail : ∀ {r : Int} {u : St N σ}, u.table dev = (devs dev).table →
      (if r = 0 then getFilter dev i >>= fun f => setFilter dev i { f with enable := true } >>=
        fun _ => pure r >>= fun ret => mutexUnlock dev >>= fun _ => pure ret
      else pure r >>= fun ret => mutexUnlock dev >>= fun _ => pure ret : DmxM N σ Int) u =
        some (ret, t) →
      Touches (fun j => j = i) (fun _ => False) (devs dev).table (t.table dev) := by
    intro r u hu h
    obtain ⟨v, h, hset⟩ := setIf_spec h
    simp only [bind_apply, mutexUnlock_apply, Option.bind_some, pure_apply, Option.some.injEq,
      Prod.mk.injEq] at h
    obtain ⟨-, rfl⟩ := h
    change Touches _ _ _ (v.table dev)
    obtain ⟨-, hv⟩ | ⟨-, hv⟩ := hset
    · change v.table dev = Function.update (u.table dev) i { u.table dev i with enable := true } at hv
      rw [hu] at hv
      rw [hv]
      apply Touches.update
      exact ⟨fun _ => .inr rfl, .inl ⟨rfl, rfl⟩, fun _ hfree => absurd hfree (by simp [hused])⟩
    · exact .of_eq (hv.trans hu)
  simp only [amDmxStartFilter, bind_apply, hdev, Option.bind_some, mutexLock_entry, hlook, deref_some,
    getFilter_apply] at h
  split at h
  next hoff =>
    cases hfn : (drv dev).enableFilter with
    | none =>
      rw [hfn] at h
      exact htail (r := 0) rfl h
    | some fn =>
      rw [hfn] at h
      simp only [if_pos] at h
      obtain ⟨r, u, hcall, h⟩ := bind_eq_some.mp h
      exact htail (callDrv_table (hk.enableFilter fn hfn true) hcall) h
  next hon =>
    simp only [bind_apply, mutexUnlock_apply, Option.bind_some, pure_apply, Option.some.injEq,
      Prod.mk.injEq] at h
    obtain ⟨-, rfl⟩ := h
    exact .of_eq rfl

end

section
variable {drv : Fin N → Driver σ} {devs : Fin N → Device σ} {dev : Fin N} {i : Fin 32} {t : St N σ}
  {fhandle ret : Int}

theorem not_opened (h : ¬ 0 < (devs dev).openCount) : ¬ Opened devs dev := by
  rintro ⟨dev', hdev, hopen⟩
  obtain rfl : dev = dev' := Fin.ext (by omega)
  exact h hopen

/-- A call on an allocated filter of an open device. -/
theorem Call.does_of_used (hk : (drv dev).Keeps) (hopen : 0 < (devs dev).openCount)
    (hused : ((devs dev).table i).used = true) {c : Call}
    (h : c.run drv dev i (entry devs) = some (ret, t)) :
    c.Does i ret (devs dev).table (t.table dev) := by
  have hdev : dmxGetOpennedDev dev (entry devs) = some (.ok dev, entry devs) :=
    dmxGetOpennedDev_ok hopen
  have hlook : dmxGetUsedFilter dev i (locked devs dev) = some ((0, some i), locked devs dev) :=
    dmxGetUsedFilter_ok hused
  have hi : ∀ j : Fin 32, (i : Int) = j → j = i := fun j hj => Fin.ext (by omega)
  have hwith : ∀ {fn : Driver σ → Option (DrvFn σ)}, (∀ f ∈ fn (drv dev), f.Keeps) →
      setWith drv fn dev i (entry devs) = some (ret, t) → (∀ cb data, c ≠ .setCallback cb data) →
      c.Does i ret (devs dev).table (t.table dev) := by
    intro fn hfn h hc
    obtain ⟨hquiet, hoff⟩ := setWith_spec hk hopen hused hfn h
    refine ⟨hquiet.mono (fun _ => False.elim) fun _ => False.elim, fun _ h0 j hj => ?_,
      fun cb data h => absurd h (hc cb data)⟩
    rw [hi j hj]
    exact hoff h0
  cases c with
  | setSecFilter params =>
    have hset : setWith drv (fun d => d.setSecFilter.map (· params)) dev i (entry devs) = some (ret, t) := h
    refine hwith (fun f hf => ?_) hset fun _ _ => Call.noConfusion
    obtain ⟨fn, hfn, rfl⟩ := Option.map_eq_some_iff.mp hf
    exact hk.setSecFilter fn hfn params
  | setPesFilter params =>
    have hset : setWith drv (fun d => d.setPesFilter.map (· params)) dev i (entry devs) = some (ret, t) := h
    refine hwith (fun f hf => ?_) hset fun _ _ => Call.noConfusion
    obtain ⟨fn, hfn, rfl⟩ := Option.map_eq_some_iff.mp hf
    exact hk.setPesFilter fn hfn params
  | freeFilter =>
    simp only [Call.run, amDmxFreeFilter, bind_apply, hdev, Option.bind_some, mutexLock_entry, hlook,
      if_pos, deref_some] at h
    obtain ⟨⟨r, u⟩, hfree, h⟩ := Option.bind_eq_some_iff.mp h
    simp only [mutexUnlock_apply, Option.bind_some, pure_apply, Option.some.injEq, Prod.mk.injEq] at h
    obtain ⟨rfl, rfl⟩ := h
    obtain ⟨hquiet, hoff⟩ := dmxFreeFilter_spec hk hfree
    refine ⟨hquiet.mono (fun _ => False.elim) fun _ => False.elim, fun _ h0 j hj => ?_,
      fun _ _ h => Call.noConfusion h⟩
    rw [hi j hj]
    exact hoff h0 hused
  | startFilter =>
    have ht := startFilter_spec hk hopen hused h
    refine ⟨ht.mono (fun j hj => ⟨rfl, ?_⟩) fun _ => False.elim, fun h => Bool.noConfusion h,
      fun _ _ h => Call.noConfusion h⟩
    rw [hj]
  | stopFilter =>
    simp only [Call.run, amDmxStopFilter, bind_apply, hdev, Option.bind_some, mutexLock_entry, hlook,
      if_pos, deref_some, getFilter_apply] at h
    split at h
    next =>
      obtain ⟨⟨r, u⟩, hstop, h⟩ := Option.bind_eq_some_iff.mp h
      obtain ⟨rfl, rfl⟩ := Prod.mk.inj (Option.some.inj h)
      obtain ⟨hquiet, -, hoff⟩ := dmxStopFilter_spec hk hstop
      refine ⟨hquiet.mono (fun _ => False.elim) fun _ => False.elim, fun _ h0 j hj => ?_,
        fun _ _ h => Call.noConfusion h⟩
      rw [hi j hj]
      exact hoff h0 hused
    next hoff =>
      simp only [bind_apply, mutexUnlock_apply, Option.bind_some, pure_apply, Option.some.injEq,
        Prod.mk.injEq] at h
      obtain ⟨rfl, rfl⟩ := h
      refine ⟨.of_eq rfl, fun _ _ j hj => ?_, fun _ _ h => Call.noConfusion h⟩
      rw [hi j hj]
      exact Bool.eq_false_iff.mpr hoff
  | setBufferSize size =>
    cases hfn : (drv dev).setBufSize with
    | none =>
      simp only [Call.run, amDmxSetBufferSize, bind_apply, hdev, Option.bind_some, mutexLock_entry, hfn,
        pure_apply, mutexUnlock_apply, Option.some.injEq, Prod.mk.injEq] at h
      obtain ⟨rfl, rfl⟩ := h
      exact .of_failed (by decide) rfl
    | some fn =>
      simp only [Call.run, amDmxSetBufferSize, bind_apply, hdev, Option.bind_some, mutexLock_entry, hfn,
        hlook, if_pos, deref_some] at h
      obtain ⟨⟨r, u⟩, hcall, h⟩ := Option.bind_eq_some_iff.mp h
      simp only [mutexUnlock_apply, Option.bind_some, pure_apply, Option.some.injEq, Prod.mk.injEq] at h
      obtain ⟨rfl, rfl⟩ := h
      exact ⟨.of_eq (callDrv_table (hk.setBufSize fn hfn size) hcall), fun h => Bool.noConfusion h,
        fun _ _ h => Call.noConfusion h⟩
  | getCallback cb data =>
    simp only [Call.run, amDmxGetCallback, map_eq_pure_bind, bind_apply, hdev, Option.bind_some,
      mutexLock_entry, hlook, if_pos, deref_some, getFilter_apply, pure_apply, mutexUnlock_apply,
      Option.some.injEq, Prod.mk.injEq] at h
    obtain ⟨-, rfl⟩ := h
    exact ⟨.of_eq rfl, fun h => Bool.noConfusion h, fun _ _ h => Call.noConfusion h⟩
  | setCallback cb data =>
    simp only [Call.run, amDmxSetCallback, bind_apply, hdev, Option.bind_some, mutexLock_entry, hlook,
      if_pos, deref_some, getFilter_apply] at h
    obtain ⟨⟨_, u⟩, hset, h⟩ := Option.bind_eq_some_iff.mp h
    simp only [mutexUnlock_apply, Option.bind_some, pure_apply, Option.some.injEq, Prod.mk.injEq] at h
    obtain ⟨-, rfl⟩ := h
    have hu := setFilter_table _ hset
    change u.table dev = Function.update (devs dev).table i
      { (devs dev).table i with cb := cb, userData := data } at hu
    refine ⟨?_, fun h => Bool.noConfusion h, fun cb' data' h _ j hj => ?_⟩
    · change Touches _ _ _ (u.table dev)
      rw [hu]
      apply Touches.update
      exact ⟨fun hon => .inl hon, .inr ⟨rfl, rfl⟩, fun h => h⟩
    · obtain ⟨rfl, rfl⟩ := Call.setCallback.inj h
      change (u.table dev j).cb = cb ∧ (u.table dev j).userData = data
      rw [hi j hj, hu, Function.update_self]
      exact ⟨rfl, rfl⟩

/-- **What a call does**, whatever its handle. -/
theorem Call.does (hk : (drv dev).Keeps) {c : Call}
    (h : c.run drv dev fhandle (entry devs) = some (ret, t)) :
    c.Does fhandle ret (devs dev).table (t.table dev) := by
  have hfailed : FailsIntact devs (c.run drv dev fhandle (entry devs)) →
      c.Does fhandle ret (devs dev).table (t.table dev) := by
    rintro ⟨ret', t', hr, hret, hsame, -⟩
    obtain ⟨rfl, rfl⟩ := Prod.mk.inj (Option.some.inj (h.symm.trans hr))
    exact .of_failed hret (funext fun j => congrArg Filter.entry (congrFun (hsame dev) j))
  by_cases hopen : 0 < (devs dev).openCount
  · by_cases hbad : BadHandle (devs dev) fhandle
    · by_cases hc : c = .startFilter
      · subst hc
        rw [Call.run, startFilter_eq_none drv hopen hbad] at h
        cases h
      · exact hfailed (Call.failsIntact_of_ne_start drv hopen hbad hc)
    · obtain ⟨i, hi⟩ := not_forall.mp hbad
      obtain ⟨rfl, hused⟩ := Classical.not_imp.mp hi
      exact Call.does_of_used hk hopen (Bool.not_eq_false _ ▸ hused) h
  · exact hfailed (Call.failsIntact_of_not_opened drv (not_opened hopen) c)

end

/-! ## How often the device is open -/

/-- A call does not count the device open once more or less. -/
def KeepsOpen {α : Type} (x : DmxM N σ α) : Prop :=
  ∀ s a t, x s = some (a, t) → ∀ dev, (t.devs dev).openCount = (s.devs dev).openCount

section
variable {dev : Fin N} {i : Fin 32}

theorem KeepsOpen.pure' {α : Type} {a : α} : KeepsOpen (pure a : DmxM N σ α) := by
  intro s a t h
  obtain ⟨-, rfl⟩ := pure_eq_some.mp h
  exact fun _ => rfl

theorem KeepsOpen.bind {α β : Type} {x : DmxM N σ α} {f : α → DmxM N σ β} (hx : KeepsOpen x)
    (hf : ∀ a, KeepsOpen (f a)) : KeepsOpen (x >>= f) := by
  intro s b t h dev
  obtain ⟨a, u, hu, ht⟩ := bind_eq_some.mp h
  exact (hf a u b t ht dev).trans (hx s a u hu dev)

theorem KeepsOpen.ite {α : Type} {p : Prop} [Decidable p] {x y : DmxM N σ α} (hx : KeepsOpen x)
    (hy : KeepsOpen y) : KeepsOpen (if p then x else y) := by
  split
  · exact hx
  · exact hy

theorem keepsOpen_mutexLock : KeepsOpen (mutexLock dev : DmxM N σ Unit) := by
  intro s a t h
  obtain ⟨-, rfl⟩ := Prod.mk.inj (Option.some.inj h)
  exact fun _ => rfl

theorem keepsOpen_mutexUnlock : KeepsOpen (mutexUnlock dev : DmxM N σ Unit) := by
  intro s a t h
  obtain ⟨-, rfl⟩ := Prod.mk.inj (Option.some.inj h)
  exact fun _ => rfl

theorem keepsOpen_get : KeepsOpen (get : DmxM N σ (St N σ)) := by
  intro s a t h
  obtain ⟨-, rfl⟩ := Prod.mk.inj (Option.some.inj h)
  exact fun _ => rfl

theorem keepsOpen_getFilter : KeepsOpen (getFilter dev i : DmxM N σ Filter) := by
  intro s a t h
  obtain ⟨-, rfl⟩ := Prod.mk.inj (Option.some.inj h)
  exact fun _ => rfl

theorem keepsOpen_setFilter {f : Filter} : KeepsOpen (setFilter dev i f : DmxM N σ Unit) := by
  intro s a t h dev'
  obtain ⟨-, rfl⟩ := Prod.mk.inj (Option.some.inj h)
  change (Function.update s.devs dev _ dev').openCount = _
  by_cases hd : dev' = dev
  · subst hd
    rw [Function.update_self]
    rfl
  · rw [Function.update_of_ne hd]

theorem keepsOpen_callDrv {fn : DrvFn σ} (hk : fn.Keeps) : KeepsOpen (callDrv dev fn i) := by
  intro s a t h dev'
  obtain ⟨d, hd, rfl⟩ := callDrv_eq_some h
  change (Function.update s.devs dev d dev').openCount = _
  by_cases hdev : dev' = dev
  · subst hdev
    rw [Function.update_self]
    exact (hk _ i d a hd).2
  · rw [Function.update_of_ne hdev]

theorem keepsOpen_deref {filter : Option (Fin 32)} : KeepsOpen (deref filter : DmxM N σ (Fin 32)) := by
  cases filter with
  | none => exact fun _ _ _ h => nomatch h
  | some i => exact KeepsOpen.pure'

theorem keepsOpen_dmxGetOpennedDev {devNo : Int} :
    KeepsOpen (dmxGetOpennedDev devNo : DmxM N σ (Except Int (Fin N))) := by
  refine .bind keepsOpen_get fun s => ?_
  split
  · exact .ite .pure' .pure'
  · exact .pure'

theorem keepsOpen_dmxGetUsedFilter {filterId : Int} :
    KeepsOpen (dmxGetUsedFilter dev filterId : DmxM N σ (Int × Option (Fin 32))) := by
  unfold dmxGetUsedFilter
  split
  · exact .pure'
  · exact .bind keepsOpen_getFilter fun f => .ite .pure' .pure'

end

section
variable {drv : Driver σ} {dev : Fin N} {i : Fin 32}

theorem keepsOpen_dmxStopFilter (hk : drv.Keeps) : KeepsOpen (dmxStopFilter drv dev i) := by
  have htail : ∀ r : Int, KeepsOpen (if r ≥ 0 then getFilter dev i >>= fun f =>
      setFilter dev i { f with enable := false } >>= fun _ => pure r else pure r : DmxM N σ Int) := fun _ =>
    .ite (.bind keepsOpen_getFilter fun _ => .bind keepsOpen_setFilter fun _ => .pure') .pure'
  refine .bind keepsOpen_getFilter fun f => .ite .pure' ?_
  cases hfn : drv.enableFilter with
  | none => exact .bind .pure' htail
  | some fn => exact .bind (keepsOpen_callDrv (hk.enableFilter fn hfn false)) htail

theorem keepsOpen_dmxFreeFilter (hk : drv.Keeps) : KeepsOpen (dmxFreeFilter drv dev i) := by
  have htail : ∀ r : Int, KeepsOpen (if r = 0 then getFilter dev i >>= fun f =>
      setFilter dev i { f with used := false } >>= fun _ => pure r else pure r : DmxM N σ Int) := fun _ =>
    .ite (.bind keepsOpen_getFilter fun _ => .bind keepsOpen_setFilter fun _ => .pure') .pure'
  refine .bind keepsOpen_getFilter fun f => .ite .pure' (.bind (keepsOpen_dmxStopFilter hk) fun r => ?_)
  cases hfn : drv.freeFilter with
  | none => exact .bind .pure' htail
  | some fn => exact .ite (.bind (keepsOpen_callDrv (hk.freeFilter fn hfn)) htail) (.bind .pure' htail)

theorem keepsOpen_freeAll (hk : drv.Keeps) (is : List (Fin 32)) : KeepsOpen (freeAll drv dev is) := by
  induction is with
  | nil => exact .pure'
  | cons i is ih => exact .bind (keepsOpen_dmxFreeFilter hk) fun _ => ih

end

section
variable {drv : Fin N → Driver σ} {devNo fhandle : Int}

/-- The frame that all calls have: the device is looked up and locked. -/
theorem KeepsOpen.onDev {α : Type} {err : Int → α} {body : Fin N → DmxM N σ α}
    (h : ∀ dev, KeepsOpen (body dev)) :
    KeepsOpen (do
      match ← dmxGetOpennedDev devNo with
      | .error e => return err e
      | .ok dev => body dev) := by
  refine .bind keepsOpen_dmxGetOpennedDev fun r => ?_
  cases r with
  | error e => exact .pure'
  | ok dev => exact h dev

theorem keepsOpen_setWith {fn : Driver σ → Option (DrvFn σ)} (hk : ∀ dev, (drv dev).Keeps)
    (hfn : ∀ dev, ∀ f ∈ fn (drv dev), f.Keeps) : KeepsOpen (setWith drv fn devNo fhandle) := by
  refine .onDev fun dev => ?_
  have hend : ∀ r : Int, KeepsOpen (mutexUnlock dev >>= fun _ => pure r : DmxM N σ Int) := fun _ =>
    .bind keepsOpen_mutexUnlock fun _ => .pure'
  cases hf : fn (drv dev) with
  | none => exact .pure'
  | some f =>
    have hcall : ∀ (r : Int) filter, KeepsOpen (if r = 0 then deref filter >>= fun i =>
        callDrv dev f i >>= fun ret => mutexUnlock dev >>= fun _ => pure ret
      else pure r >>= fun ret => mutexUnlock dev >>= fun _ => pure ret : DmxM N σ Int) := fun _ _ =>
      .ite (.bind keepsOpen_deref fun _ => .bind (keepsOpen_callDrv (hfn dev f hf)) hend)
        (.bind .pure' hend)
    refine .bind keepsOpen_mutexLock fun _ => .bind keepsOpen_dmxGetUsedFilter fun p => .ite ?_ ?_
    · exact .bind keepsOpen_deref fun _ => .bind (keepsOpen_dmxStopFilter (hk dev)) fun r => hcall r p.2
    · exact .bind .pure' fun r => hcall r p.2

theorem Call.keepsOpen (hk : ∀ dev, (drv dev).Keeps) (c : Call) :
    KeepsOpen (c.run drv devNo fhandle) := by
  have hend : ∀ (dev : Fin N) (r : Int), KeepsOpen (mutexUnlock dev >>= fun _ => pure r : DmxM N σ Int) :=
    fun _ _ => .bind keepsOpen_mutexUnlock fun _ => .pure'
  cases c with
  | setSecFilter params =>
    change KeepsOpen (setWith drv (fun d => d.setSecFilter.map (· params)) devNo fhandle)
    refine keepsOpen_setWith hk fun dev f hf => ?_
    obtain ⟨fn, hfn, rfl⟩ := Option.map_eq_some_iff.mp hf
    exact (hk dev).setSecFilter fn hfn params
  | setPesFilter params =>
    change KeepsOpen (setWith drv (fun d => d.setPesFilter.map (· params)) devNo fhandle)
    refine keepsOpen_setWith hk fun dev f hf => ?_
    obtain ⟨fn, hfn, rfl⟩ := Option.map_eq_some_iff.mp hf
    exact (hk dev).setPesFilter fn hfn params
  | freeFilter =>
    refine .onDev fun dev => .bind keepsOpen_mutexLock fun _ => .bind keepsOpen_dmxGetUsedFilter fun p =>
      .ite ?_ (.bind .pure' (hend dev))
    exact .bind keepsOpen_deref fun i => .bind (keepsOpen_dmxFreeFilter (hk dev)) (hend dev)
  | startFilter =>
    refine .onDev fun dev => .bind keepsOpen_mutexLock fun _ => .bind keepsOpen_dmxGetUsedFilter fun p =>
      .bind keepsOpen_deref fun i => .bind keepsOpen_getFilter fun f => .ite ?_ (.bind .pure' (hend dev))
    have htail : ∀ r : Int, KeepsOpen (if r = 0 then getFilter dev i >>= fun f =>
        setFilter dev i { f with enable := true } >>= fun _ => pure r >>= fun ret =>
          mutexUnlock dev >>= fun _ => pure ret
      else pure r >>= fun ret => mutexUnlock dev >>= fun _ => pure ret : DmxM N σ Int) := fun _ =>
      .ite (.bind keepsOpen_getFilter fun _ => .bind keepsOpen_setFilter fun _ =>
        .bind .pure' (hend dev)) (.bind .pure' (hend dev))
    cases hfn : (drv dev).enableFilter with
    | none => exact .bind .pure' htail
    | some fn =>
      exact .ite (.bind (keepsOpen_callDrv ((hk dev).enableFilter fn hfn true)) htail) (.bind .pure' htail)
  | stopFilter =>
    refine .onDev fun dev => .bind keepsOpen_mutexLock fun _ => .bind keepsOpen_dmxGetUsedFilter fun p =>
      .ite (.bind keepsOpen_deref fun i => .bind keepsOpen_getFilter fun f => .ite ?_ ?_) ?_
    · exact .bind (keepsOpen_dmxStopFilter (hk dev)) (hend dev)
    · exact .bind .pure' (hend dev)
    · exact .bind .pure' (hend dev)
  | setBufferSize size =>
    refine .onDev fun dev => .bind keepsOpen_mutexLock fun _ => ?_
    cases hfn : (drv dev).setBufSize with
    | none => exact .bind .pure' (hend dev)
    | some fn =>
      refine .bind keepsOpen_dmxGetUsedFilter fun p => .ite (.bind keepsOpen_deref fun i => ?_) ?_
      · exact .bind (keepsOpen_callDrv ((hk dev).setBufSize fn hfn size)) (hend dev)
      · exact .bind .pure' (hend dev)
  | getCallback cb data =>
    refine .bind (.onDev fun dev => .bind keepsOpen_mutexLock fun _ =>
      .bind keepsOpen_dmxGetUsedFilter fun p => .ite ?_ ?_) fun _ => .pure'
    · exact .bind keepsOpen_deref fun i => .bind keepsOpen_getFilter fun f => .bind .pure' fun _ =>
        .bind keepsOpen_mutexUnlock fun _ => .pure'
    · exact .bind .pure' fun _ => .bind keepsOpen_mutexUnlock fun _ => .pure'
  | setCallback cb data =>
    refine .onDev fun dev => .bind keepsOpen_mutexLock fun _ => .bind keepsOpen_dmxGetUsedFilter fun p =>
      .ite ?_ (hend dev p.1)
    exact .bind keepsOpen_deref fun i => .bind keepsOpen_getFilter fun f =>
      .bind keepsOpen_setFilter fun _ => hend dev p.1

end

/-! ## The calls on the device -/

section
variable {drv : DmxDriver σ} {d d' : Device σ}

theorem onDevice_eq_some {α : Type} {x : DmxM 1 σ α} {a : α} (h : onDevice x d = some (a, d')) :
    ∃ t, x (entry fun _ => d) = some (a, t) ∧ t.devs 0 = d' := by
  obtain ⟨⟨b, t⟩, hx, hr⟩ := Option.map_eq_some_iff.mp h
  obtain ⟨rfl, rfl⟩ := Prod.mk.inj hr
  exact ⟨t, hx, rfl⟩

theorem onDevice_openCount {α : Type} {x : DmxM 1 σ α} {a : α} (hx : KeepsOpen x)
    (h : onDevice x d = some (a, d')) : d'.openCount = d.openCount := by
  obtain ⟨t, ht, rfl⟩ := onDevice_eq_some h
  exact hx _ a t ht 0

theorem callFn_does (hk : drv.Keeps) {fhandle ret : Int} {c : Call}
    (h : callFn drv fhandle c d = some (ret, d')) : c.Does fhandle ret d.table d'.table := by
  obtain ⟨t, ht, rfl⟩ := onDevice_eq_some h
  have ht : c.run _ (0 : Fin 1) fhandle (entry fun _ => d) = some (ret, t) := ht
  exact Call.does hk.base ht

theorem callFn_openCount (hk : drv.Keeps) {fhandle ret : Int} {c : Call}
    (h : callFn drv fhandle c d = some (ret, d')) : d'.openCount = d.openCount :=
  onDevice_openCount (Call.keepsOpen (fun _ => hk.base) c) h

theorem freeAll_quiets {drv : Driver σ} (hk : drv.Keeps) {dev : Fin N} {is : List (Fin 32)}
    {s t : St N σ} (h : freeAll drv dev is s = some ((), t)) : Quiets (s.table dev) (t.table dev) := by
  induction is generalizing s with
  | nil =>
    obtain ⟨-, rfl⟩ := pure_eq_some.mp h
    exact .of_eq rfl
  | cons i is ih =>
    obtain ⟨r, u, hfree, h⟩ := bind_eq_some.mp h
    exact (dmxFreeFilter_spec hk hfree).1.trans (ih h)

theorem freeFn_spec (hk : drv.Keeps) {u : Unit} (h : freeFn drv d = some (u, d')) :
    Quiets d.table d'.table ∧ d'.openCount = d.openCount := by
  refine ⟨?_, onDevice_openCount (keepsOpen_freeAll hk.base _) h⟩
  obtain ⟨t, ht, rfl⟩ := onDevice_eq_some h
  exact freeAll_quiets hk.base ht

theorem callDev_spec {fn : Option (DevFn σ)} (hk : ∀ f ∈ fn, f.Keeps) {ret : Int}
    (h : callDev fn d = some (d', ret)) : d'.table = d.table ∧ d'.openCount = d.openCount := by
  cases fn with
  | none =>
    obtain ⟨rfl, -⟩ := Prod.mk.inj (Option.some.inj h)
    exact ⟨rfl, rfl⟩
  | some f => exact hk f rfl d d' ret h

theorem keepsOpen_amDmxAllocateFilter {drv : Fin N → DmxDriver σ} (hk : ∀ dev, (drv dev).Keeps)
    {devNo : Int} : KeepsOpen (amDmxAllocateFilter drv devNo) := by
  refine .onDev fun dev => .bind keepsOpen_mutexLock fun _ => .bind keepsOpen_get fun s => ?_
  have hend : ∀ r : Int × Option (Fin 32), KeepsOpen (mutexUnlock dev >>= fun _ => pure r :
      DmxM N σ (Int × Option (Fin 32))) := fun _ => .bind keepsOpen_mutexUnlock fun _ => .pure'
  split
  · exact .bind .pure' hend
  next fid _ =>
    have htail : ∀ r : Int, KeepsOpen (if r = 0 then getFilter dev fid >>= fun f =>
        setFilter dev fid { f with used := true } >>= fun _ => pure (r, some fid) >>= fun r =>
          mutexUnlock dev >>= fun _ => pure r
      else pure (r, none) >>= fun r => mutexUnlock dev >>= fun _ => pure r :
        DmxM N σ (Int × Option (Fin 32))) := fun _ =>
      .ite (.bind keepsOpen_getFilter fun _ => .bind keepsOpen_setFilter fun _ => .bind .pure' hend)
        (.bind .pure' hend)
    refine .bind keepsOpen_getFilter fun f => .bind keepsOpen_setFilter fun _ => ?_
    cases hfn : (drv dev).allocFilter with
    | none => exact .bind .pure' htail
    | some fn => exact .bind (keepsOpen_callDrv ((hk dev).allocFilter fn hfn)) htail

/-- A filter is handed out as it is, unless the driver refuses it. -/
theorem amDmxAllocateFilter_spec {drv : Fin N → DmxDriver σ} {devs : Fin N → Device σ} {dev : Fin N}
    (hk : (drv dev).Keeps) {ret : Int} {fhandle : Option (Fin 32)} {t : St N σ}
    (h : amDmxAllocateFilter drv dev (entry devs) = some ((ret, fhandle), t)) :
    Quiets (devs dev).table (t.table dev) ∧ ∀ i ∈ fhandle, ((devs dev).table i).used = false ∧
      (t.table dev i).enable = ((devs dev).table i).enable := by
  by_cases hopen : 0 < (devs dev).openCount
  · have hdev : dmxGetOpennedDev dev (entry devs) = some (.ok dev, entry devs) :=
      dmxGetOpennedDev_ok hopen
    have hget : (get : DmxM N σ (St N σ)) (locked devs dev) = some (locked devs dev, locked devs dev) := rfl
    simp only [amDmxAllocateFilter, bind_apply, hdev, Option.bind_some, mutexLock_entry, hget] at h
    cases hfind : (List.finRange 32).find? fun fid => ! (((locked devs dev).devs dev).filters fid).used with
    | none =>
      rw [hfind] at h
      simp only [bind_apply, pure_apply, Option.bind_some, mutexUnlock_apply, Option.some.injEq,
        Prod.mk.injEq] at h
      obtain ⟨⟨-, rfl⟩, rfl⟩ := h
      exact ⟨.of_eq rfl, fun _ h => nomatch h⟩
    | some fid =>
      rw [hfind] at h
      have hfree : ((devs dev).table fid).used = false := by
        have hnot := List.find?_some hfind
        change (! ((devs dev).table fid).used) = true at hnot
        simpa using hnot
      -- the end of the function, after the driver was asked
      have htail : ∀ {r : Int} {u : St N σ}, u.table dev = (devs dev).table →
          (if r = 0 then getFilter dev fid >>= fun f => setFilter dev fid { f with used := true } >>=
            fun _ => pure (r, some fid) >>= fun r => mutexUnlock dev >>= fun _ => pure r
          else pure (r, none) >>= fun r => mutexUnlock dev >>= fun _ => pure r :
            DmxM N σ (Int × Option (Fin 32))) u = some ((ret, fhandle), t) →
          Quiets (devs dev).table (t.table dev) ∧ ∀ i ∈ fhandle, ((devs dev).table i).used = false ∧
            (t.table dev i).enable = ((devs dev).table i).enable := by
        intro r u hu h
        by_cases hr : r = 0
        · rw [if_pos hr] at h
          obtain ⟨_, _, hg, h⟩ := bind_eq_some.mp h
          obtain ⟨rfl, rfl⟩ := Prod.mk.inj (Option.some.inj hg)
          obtain ⟨_, v, hset, h⟩ := bind_eq_some.mp h
          simp only [bind_apply, pure_apply, Option.bind_some, mutexUnlock_apply, Option.some.injEq,
            Prod.mk.injEq] at h
          obtain ⟨⟨-, rfl⟩, rfl⟩ := h
          have hv := setFilter_table _ hset
          change v.table dev = Function.update (u.table dev) fid { u.table dev fid with used := true } at hv
          rw [hu] at hv
          change Quiets _ (v.table dev) ∧ ∀ i ∈ some fid, _ ∧ (v.table dev i).enable = _
          rw [hv]
          refine ⟨Touches.update ⟨fun hon => .inl hon, .inl ⟨rfl, rfl⟩, fun _ h => nomatch h⟩, ?_⟩
          intro i hi
          obtain rfl := Option.some.inj hi
          exact ⟨hfree, by rw [Function.update_self]⟩
        · rw [if_neg hr] at h
          simp only [bind_apply, pure_apply, Option.bind_some, mutexUnlock_apply, Option.some.injEq,
            Prod.mk.injEq] at h
          obtain ⟨⟨-, rfl⟩, rfl⟩ := h
          exact ⟨.of_eq hu, fun _ h => nomatch h⟩
      obtain ⟨_, _, hg, h⟩ := bind_eq_some.mp h
      obtain ⟨rfl, rfl⟩ := Prod.mk.inj (Option.some.inj hg)
      obtain ⟨_, u, hset, h⟩ := bind_eq_some.mp h
      have hu : u.table dev = (devs dev).table := by
        rw [setFilter_table _ hset]
        exact Function.update_eq_self fid (devs dev).table
      cases hfn : (drv dev).allocFilter with
      | none =>
        rw [hfn] at h
        exact htail (r := 0) hu h
      | some fn =>
        rw [hfn] at h
        obtain ⟨r, v, hcall, h⟩ := bind_eq_some.mp h
        exact htail ((callDrv_table (hk.allocFilter fn hfn) hcall).trans hu) h
  · have hdev : dmxGetOpennedDev dev (entry devs) = some (.error errInvalidDevNo, entry devs) :=
      dmxGetOpennedDev_error (not_opened hopen)
    simp only [amDmxAllocateFilter, bind_apply, hdev, Option.bind_some, pure_apply, Option.some.injEq,
      Prod.mk.injEq] at h
    obtain ⟨⟨-, rfl⟩, rfl⟩ := h
    exact ⟨.of_eq rfl, fun _ h => nomatch h⟩

theorem allocateFn_spec (hk : drv.Keeps) {ret : Int} {fhandle : Option (Fin 32)}
    (h : allocateFn drv d = some ((ret, fhandle), d')) :
    (Quiets d.table d'.table ∧ ∀ i ∈ fhandle, (d.table i).used = false ∧
      (d'.table i).enable = (d.table i).enable) ∧ d'.openCount = d.openCount := by
  refine ⟨?_, onDevice_openCount (keepsOpen_amDmxAllocateFilter fun _ => hk) h⟩
  obtain ⟨t, ht, rfl⟩ := onDevice_eq_some h
  have ht : amDmxAllocateFilter _ (0 : Fin 1) (entry fun _ => d) = some ((ret, fhandle), t) := ht
  exact amDmxAllocateFilter_spec hk ht

end

end VendorAmlogic.Demux.Api
