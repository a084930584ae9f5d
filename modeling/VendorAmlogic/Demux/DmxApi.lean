import Mathlib.Tactic
import VendorAmlogic.Demux.Dvr

/-!
# The filter interface

The entry points of `am_dmx/am_dmx.c` that take a filter handle, over any
driver. A function of the driver may be missing (`NULL`); it gets the device and
the filter, and may do with the device what it likes. A call takes the lock of
its device, looks the handle up, acts on the filter and gives the lock back, with
an exit of its own at each step. What dereferences `NULL` has no result.

The devices are those at the moment the lock is granted, and `held` are the locks
that the calling thread holds. `DMX_DEV_COUNT` depends on the chip.
-/

namespace VendorAmlogic.Demux.Api

open VendorAmlogic.Lib

def errInvalidDevNo : Int := 2 ^ 24 + 1

def errNotSupported : Int := 2 ^ 24 + 7

/-! ## State -/

/-- An address; `0` is `NULL`. -/
abbrev Ptr := Nat

/-- `struct AM_DMX_Filter`. -/
structure Filter where
  drvData : Ptr
  used : Bool
  enable : Bool
  id : Int
  cb : Ptr
  userData : Ptr

/-- `struct AM_DMX_Device`; `σ` is the private data of its driver. -/
structure Device (σ : Type) where
  drvData : σ
  filters : Fin 32 → Filter
  openCount : Int

/-- `struct dmx_pes_filter_params`. -/
structure PesFilterParams where
  pid : BitVec 16
  input : Nat
  output : Nat
  pesType : Nat
  flags : BitVec 32

/-- A function of a driver: the device after it and its error code. -/
abbrev DrvFn (σ : Type) := Device σ → Fin 32 → Option (Device σ × Int)

/-- The functions of `AM_DMX_Driver_t` that the entry points below call. -/
structure Driver (σ : Type) where
  freeFilter : Option (DrvFn σ)
  setSecFilter : Option (SctFilterParams → DrvFn σ)
  setPesFilter : Option (PesFilterParams → DrvFn σ)
  enableFilter : Option (Bool → DrvFn σ)
  setBufSize : Option (Int → DrvFn σ)

structure St (N : Nat) (σ : Type) where
  devs : Fin N → Device σ
  held : Fin N → Bool

/-- A call; `none` is a dereference of `NULL`. -/
abbrev DmxM (N : Nat) (σ : Type) := StateT (St N σ) Option

variable {N : Nat} {σ : Type}

/-! ## Helpers -/

def mutexLock (dev : Fin N) : DmxM N σ Unit :=
  modify fun s => { s with held := Function.update s.held dev true }

def mutexUnlock (dev : Fin N) : DmxM N σ Unit :=
  modify fun s => { s with held := Function.update s.held dev false }

def getFilter (dev : Fin N) (filter : Fin 32) : DmxM N σ Filter := do
  return ((← get).devs dev).filters filter

def Device.setFilter (d : Device σ) (filter : Fin 32) (f : Filter) : Device σ :=
  { d with filters := Function.update d.filters filter f }

def setFilter (dev : Fin N) (filter : Fin 32) (f : Filter) : DmxM N σ Unit :=
  modify fun s => { s with devs := Function.update s.devs dev ((s.devs dev).setFilter filter f) }

/-- `dev->drv->fn(dev, filter, ...)`. -/
def callDrv (dev : Fin N) (fn : DrvFn σ) (filter : Fin 32) : DmxM N σ Int := do
  let s ← get
  let (d, ret) ← fn (s.devs dev) filter
  set { s with devs := Function.update s.devs dev d }
  return ret

/-- The pointer of a filter is followed. -/
def deref (filter : Option (Fin 32)) : DmxM N σ (Fin 32) := filter

/-- `dmx_get_openned_dev` and `dmx_get_dev`. -/
def dmxGetOpennedDev (devNo : Int) : DmxM N σ (Except Int (Fin N)) := do
  let s ← get
  if h : 0 ≤ devNo ∧ devNo < N then
    let dev : Fin N := ⟨devNo.toNat, by omega⟩
    if (s.devs dev).openCount ≤ 0 then return .error errInvalidDevNo
    return .ok dev
  else return .error errInvalidDevNo

/-- `dmx_get_used_filter`: the error code and what `*pf` is after it, `none` where it is not set. -/
def dmxGetUsedFilter (dev : Fin N) (filterId : Int) : DmxM N σ (Int × Option (Fin 32)) := do
  if h : filterId < 0 ∨ 32 ≤ filterId then return (errInvalidId, none)
  else
    let filter : Fin 32 := ⟨filterId.toNat, by omega⟩
    let f ← getFilter dev filter
    if ! f.used then return (errNotAllocated, none)
    return (0, some filter)

/-- `dmx_stop_filter`. -/
def dmxStopFilter (drv : Driver σ) (dev : Fin N) (filter : Fin 32) : DmxM N σ Int := do
  let f ← getFilter dev filter
  if ! f.used ∨ ! f.enable then return 0
  let ret ← match drv.enableFilter with
    | some fn => callDrv dev (fn false) filter
    | none => pure 0
  if ret ≥ 0 then
    let f ← getFilter dev filter
    setFilter dev filter { f with enable := false }
  return ret

/-- `dmx_free_filter`. -/
def dmxFreeFilter (drv : Driver σ) (dev : Fin N) (filter : Fin 32) : DmxM N σ Int := do
  let f ← getFilter dev filter
  if ! f.used then return 0
  let ret ← dmxStopFilter drv dev filter
  let ret ← match drv.freeFilter with
    | some fn => if ret = 0 then callDrv dev fn filter else pure ret
    | none => pure ret
  if ret = 0 then
    let f ← getFilter dev filter
    setFilter dev filter { f with used := false }
  return ret

/-! ## Entry points -/

/-- The frame of `AM_DMX_SetSecFilter` and `AM_DMX_SetPesFilter`; `fn` is the function of the
driver, with the parameters. -/
def setWith (drv : Fin N → Driver σ) (fn : Driver σ → Option (DrvFn σ)) (devNo fhandle : Int) :
    DmxM N σ Int := do
  match ← dmxGetOpennedDev devNo with
  | .error e => return e
  | .ok dev =>
    match fn (drv dev) with
    | none => return errNotSupported
    | some fn =>
      mutexLock dev
      let (ret, filter) ← dmxGetUsedFilter dev fhandle
      let ret ← if ret = 0 then do dmxStopFilter (drv dev) dev (← deref filter) else pure ret
      let ret ← if ret = 0 then do callDrv dev fn (← deref filter) else pure ret
      mutexUnlock dev
      return ret

def amDmxSetSecFilter (drv : Fin N → Driver σ) (devNo fhandle : Int) (params : SctFilterParams) :
    DmxM N σ Int :=
  setWith drv (fun d => d.setSecFilter.map (· params)) devNo fhandle

def amDmxSetPesFilter (drv : Fin N → Driver σ) (devNo fhandle : Int) (params : PesFilterParams) :
    DmxM N σ Int :=
  setWith drv (fun d => d.setPesFilter.map (· params)) devNo fhandle

def amDmxFreeFilter (drv : Fin N → Driver σ) (devNo fhandle : Int) : DmxM N σ Int := do
  match ← dmxGetOpennedDev devNo with
  | .error e => return e
  | .ok dev =>
    mutexLock dev
    let (ret, filter) ← dmxGetUsedFilter dev fhandle
    let ret ← if ret = 0 then do dmxFreeFilter (drv dev) dev (← deref filter) else pure ret
    mutexUnlock dev
    return ret

/-- `AM_DMX_StartFilter`. It looks at `filter->enable` before it looks at `ret`. -/
def amDmxStartFilter (drv : Fin N → Driver σ) (devNo fhandle : Int) : DmxM N σ Int := do
  match ← dmxGetOpennedDev devNo with
  | .error e => return e
  | .ok dev =>
    mutexLock dev
    let (ret, filter) ← dmxGetUsedFilter dev fhandle
    let filter ← deref filter
    let f ← getFilter dev filter
    let ret ← if ! f.enable then do
        let ret ← match (drv dev).enableFilter with
          | some fn => if ret = 0 then callDrv dev (fn true) filter else pure ret
          | none => pure ret
        if ret = 0 then
          let f ← getFilter dev filter
          setFilter dev filter { f with enable := true }
        pure ret
      else pure ret
    mutexUnlock dev
    return ret

def amDmxStopFilter (drv : Fin N → Driver σ) (devNo fhandle : Int) : DmxM N σ Int := do
  match ← dmxGetOpennedDev devNo with
  | .error e => return e
  | .ok dev =>
    mutexLock dev
    let (ret, filter) ← dmxGetUsedFilter dev fhandle
    let ret ← if ret = 0 then do
        let filter ← deref filter
        let f ← getFilter dev filter
        if f.enable then dmxStopFilter (drv dev) dev filter else pure ret
      else pure ret
    mutexUnlock dev
    return ret

/-- `AM_DMX_SetBufferSize`. It asks for the driver's function under the lock. -/
def amDmxSetBufferSize (drv : Fin N → Driver σ) (devNo fhandle size : Int) : DmxM N σ Int := do
  match ← dmxGetOpennedDev devNo with
  | .error e => return e
  | .ok dev =>
    mutexLock dev
    let ret ← match (drv dev).setBufSize with
      | none => pure errNotSupported
      | some fn => do
        let (ret, filter) ← dmxGetUsedFilter dev fhandle
        if ret = 0 then callDrv dev (fn size) (← deref filter) else pure ret
    mutexUnlock dev
    return ret

/-- `AM_DMX_GetCallback`: with the error code, what is written to `*cb` and `*data`; either pointer
may be `NULL`. -/
def amDmxGetCallback (devNo fhandle : Int) (cb data : Bool) :
    DmxM N σ (Int × Option Ptr × Option Ptr) := do
  match ← dmxGetOpennedDev devNo with
  | .error e => return (e, none, none)
  | .ok dev =>
    mutexLock dev
    let (ret, filter) ← dmxGetUsedFilter dev fhandle
    let out ← if ret = 0 then do
        let f ← getFilter dev (← deref filter)
        pure (if cb then some f.cb else none, if data then some f.userData else none)
      else pure (none, none)
    mutexUnlock dev
    return (ret, out)

def amDmxSetCallback (devNo fhandle : Int) (cb data : Ptr) : DmxM N σ Int := do
  match ← dmxGetOpennedDev devNo with
  | .error e => return e
  | .ok dev =>
    mutexLock dev
    let (ret, filter) ← dmxGetUsedFilter dev fhandle
    if ret = 0 then
      let filter ← deref filter
      let f ← getFilter dev filter
      setFilter dev filter { f with cb := cb, userData := data }
    mutexUnlock dev
    return ret

/-- The calls with a filter handle. -/
inductive Call where
  | setSecFilter (params : SctFilterParams)
  | setPesFilter (params : PesFilterParams)
  | freeFilter
  | startFilter
  | stopFilter
  | setBufferSize (size : Int)
  | getCallback (cb data : Bool)
  | setCallback (cb data : Ptr)

def Call.run (drv : Fin N → Driver σ) (devNo fhandle : Int) : Call → DmxM N σ Int
  | .setSecFilter params => amDmxSetSecFilter drv devNo fhandle params
  | .setPesFilter params => amDmxSetPesFilter drv devNo fhandle params
  | .freeFilter => amDmxFreeFilter drv devNo fhandle
  | .startFilter => amDmxStartFilter drv devNo fhandle
  | .stopFilter => amDmxStopFilter drv devNo fhandle
  | .setBufferSize size => amDmxSetBufferSize drv devNo fhandle size
  | .getCallback cb data => (·.1) <$> amDmxGetCallback devNo fhandle cb data
  | .setCallback cb data => amDmxSetCallback devNo fhandle cb data

/-! ## Handles that are not valid -/

/-- The handle is out of range, or its filter is not allocated. -/
def BadHandle (d : Device σ) (fhandle : Int) : Prop :=
  ∀ filter : Fin 32, fhandle = filter → (d.filters filter).used = false

/-- The device number is that of an open device. -/
def Opened (devs : Fin N → Device σ) (devNo : Int) : Prop :=
  ∃ dev : Fin N, devNo = dev ∧ 0 < (devs dev).openCount

/-- What a call does that fails and leaves the devices intact: it comes back, with an error, all
filters are as they were, and it holds no lock. -/
def FailsIntact (devs : Fin N → Device σ) (r : Option (Int × St N σ)) : Prop :=
  ∃ ret t, r = some (ret, t) ∧ ret ≠ 0 ∧ (∀ dev, (t.devs dev).filters = (devs dev).filters) ∧
    ∀ dev, t.held dev = false

/-- A call begins with no lock held. -/
def entry (devs : Fin N → Device σ) : St N σ := ⟨devs, fun _ => false⟩

def locked (devs : Fin N → Device σ) (dev : Fin N) : St N σ :=
  ⟨devs, Function.update (fun _ => false) dev true⟩

section
variable {devs : Fin N → Device σ} {devNo fhandle : Int} {dev : Fin N} {s : St N σ}

theorem bind_apply {α β : Type} (x : DmxM N σ α) (f : α → DmxM N σ β) :
    (x >>= f) s = (x s).bind fun p => f p.1 p.2 := rfl

theorem pure_apply {α : Type} (a : α) : (pure a : DmxM N σ α) s = some (a, s) := rfl

theorem mutexLock_entry : mutexLock dev (entry devs) = some ((), locked devs dev) := rfl

theorem mutexUnlock_locked : mutexUnlock dev (locked devs dev) = some ((), entry devs) := by
  refine congrArg some (Prod.ext rfl (congrArg (St.mk devs) (funext fun i => ?_)))
  by_cases hi : i = dev
  · rw [hi]
    exact Function.update_self ..
  · rw [Function.update_of_ne hi]
    exact Function.update_of_ne hi true (fun _ => false)

theorem dmxGetOpennedDev_error (h : ¬ Opened s.devs devNo) :
    dmxGetOpennedDev devNo s = some (.error errInvalidDevNo, s) := by
  unfold dmxGetOpennedDev
  rw [bind_apply]
  change (if hr : 0 ≤ devNo ∧ devNo < N then _ else _ : DmxM N σ _) s = _
  split
  next hr =>
    rw [if_pos]
    · rfl
    · refine not_lt.mp fun hpos => h ⟨⟨devNo.toNat, by omega⟩, ?_, hpos⟩
      dsimp only
      omega
  · rfl

theorem dmxGetOpennedDev_ok (h : 0 < (s.devs dev).openCount) :
    dmxGetOpennedDev dev s = some (.ok dev, s) := by
  unfold dmxGetOpennedDev
  rw [bind_apply]
  change (if hr : 0 ≤ (dev : Int) ∧ (dev : Int) < N then _ else _ : DmxM N σ _) s = _
  have hdev := dev.isLt
  rw [dif_pos (by omega)]
  change (if (s.devs dev).openCount ≤ 0 then _ else _ : DmxM N σ _) s = _
  rw [if_neg (by omega)]
  rfl

/-- A handle that is not valid is found out, and `*pf` is not set. -/
theorem dmxGetUsedFilter_error (h : BadHandle (s.devs dev) fhandle) :
    ∃ ret ≠ 0, dmxGetUsedFilter dev fhandle s = some ((ret, none), s) := by
  unfold dmxGetUsedFilter
  split
  · exact ⟨errInvalidId, by decide, rfl⟩
  next hr =>
    have hfree := h ⟨fhandle.toNat, by omega⟩ (by dsimp only; omega)
    refine ⟨errNotAllocated, by decide, ?_⟩
    change (if ! ((s.devs dev).filters _).used then _ else _ : DmxM N σ _) s = _
    rw [hfree]
    rfl

theorem failsIntact_entry {ret : Int} (hret : ret ≠ 0) : FailsIntact devs (some (ret, entry devs)) :=
  ⟨ret, _, rfl, hret, fun _ => rfl, fun _ => rfl⟩

/-- A device that is not open is found out before anything else. -/
theorem Call.failsIntact_of_not_opened (drv : Fin N → Driver σ) (h : ¬ Opened devs devNo) (c : Call) :
    FailsIntact devs (c.run drv devNo fhandle (entry devs)) := by
  have hdev : dmxGetOpennedDev devNo (entry devs) = some (.error errInvalidDevNo, entry devs) :=
    dmxGetOpennedDev_error h
  suffices c.run drv devNo fhandle (entry devs) = some (errInvalidDevNo, entry devs) by
    rw [this]
    exact failsIntact_entry (by decide)
  cases c with
  | setSecFilter params =>
    simp only [Call.run, amDmxSetSecFilter, setWith, bind_apply, hdev, Option.bind_some, pure_apply]
  | setPesFilter params =>
    simp only [Call.run, amDmxSetPesFilter, setWith, bind_apply, hdev, Option.bind_some, pure_apply]
  | freeFilter => simp only [Call.run, amDmxFreeFilter, bind_apply, hdev, Option.bind_some, pure_apply]
  | startFilter => simp only [Call.run, amDmxStartFilter, bind_apply, hdev, Option.bind_some, pure_apply]
  | stopFilter => simp only [Call.run, amDmxStopFilter, bind_apply, hdev, Option.bind_some, pure_apply]
  | setBufferSize size =>
    simp only [Call.run, amDmxSetBufferSize, bind_apply, hdev, Option.bind_some, pure_apply]
  | getCallback cb data =>
    simp only [Call.run, amDmxGetCallback, map_eq_pure_bind, bind_apply, hdev, Option.bind_some,
      pure_apply]
  | setCallback cb data =>
    simp only [Call.run, amDmxSetCallback, bind_apply, hdev, Option.bind_some, pure_apply]

/-- With a handle that is not valid, every call but one gives its lock back and fails. -/
theorem Call.failsIntact_of_ne_start (drv : Fin N → Driver σ) (hopen : 0 < (devs dev).openCount)
    (hbad : BadHandle (devs dev) fhandle) {c : Call} (hc : c ≠ .startFilter) :
    FailsIntact devs (c.run drv dev fhandle (entry devs)) := by
  have hdev : dmxGetOpennedDev dev (entry devs) = some (.ok dev, entry devs) :=
    dmxGetOpennedDev_ok hopen
  obtain ⟨ret, hret, hlook⟩ : ∃ ret ≠ 0,
      dmxGetUsedFilter dev fhandle (locked devs dev) = some ((ret, none), locked devs dev) :=
    dmxGetUsedFilter_error hbad
  have hset : ∀ fn : Driver σ → Option (DrvFn σ),
      FailsIntact devs (setWith drv fn dev fhandle (entry devs)) := by
    intro fn
    cases hfn : fn (drv dev) with
    | none =>
      simp only [setWith, bind_apply, hdev, Option.bind_some, hfn, pure_apply]
      exact failsIntact_entry (by decide)
    | some fn =>
      simp only [setWith, bind_apply, hdev, Option.bind_some, hfn, mutexLock_entry, hlook, if_neg hret,
        pure_apply, mutexUnlock_locked]
      exact failsIntact_entry hret
  cases c with
  | setSecFilter params => exact hset fun d => d.setSecFilter.map (· params)
  | setPesFilter params => exact hset fun d => d.setPesFilter.map (· params)
  | freeFilter =>
    simp only [Call.run, amDmxFreeFilter, bind_apply, hdev, mutexLock_entry, Option.bind_some, hlook,
      if_neg hret, pure_apply, mutexUnlock_locked]
    exact failsIntact_entry hret
  | startFilter => exact absurd rfl hc
  | stopFilter =>
    simp only [Call.run, amDmxStopFilter, bind_apply, hdev, mutexLock_entry, Option.bind_some, hlook,
      if_neg hret, pure_apply, mutexUnlock_locked]
    exact failsIntact_entry hret
  | setBufferSize size =>
    cases hfn : (drv dev).setBufSize with
    | none =>
      simp only [Call.run, amDmxSetBufferSize, bind_apply, hdev, mutexLock_entry, Option.bind_some, hfn,
        pure_apply, mutexUnlock_locked]
      exact failsIntact_entry (by decide)
    | some fn =>
      simp only [Call.run, amDmxSetBufferSize, bind_apply, hdev, mutexLock_entry, Option.bind_some, hfn,
        hlook, if_neg hret, pure_apply, mutexUnlock_locked]
      exact failsIntact_entry hret
  | getCallback cb data =>
    simp only [Call.run, amDmxGetCallback, map_eq_pure_bind, bind_apply, hdev, mutexLock_entry,
      Option.bind_some, hlook, if_neg hret, pure_apply, mutexUnlock_locked]
    exact failsIntact_entry hret
  | setCallback cb data =>
    simp only [Call.run, amDmxSetCallback, bind_apply, hdev, mutexLock_entry, Option.bind_some, hlook,
      if_neg hret, pure_apply, mutexUnlock_locked]
    exact failsIntact_entry hret

/-- `AM_DMX_StartFilter` follows the pointer that the look-up has not set. -/
theorem startFilter_eq_none (drv : Fin N → Driver σ) (hopen : 0 < (devs dev).openCount)
    (hbad : BadHandle (devs dev) fhandle) :
    amDmxStartFilter drv dev fhandle (entry devs) = none := by
  have hdev : dmxGetOpennedDev dev (entry devs) = some (.ok dev, entry devs) :=
    dmxGetOpennedDev_ok hopen
  obtain ⟨ret, -, hlook⟩ : ∃ ret ≠ 0,
      dmxGetUsedFilter dev fhandle (locked devs dev) = some ((ret, none), locked devs dev) :=
    dmxGetUsedFilter_error hbad
  simp only [amDmxStartFilter, bind_apply, hdev, mutexLock_entry, Option.bind_some, hlook]
  rfl

/-- **A call with a handle that is not valid fails and leaves the devices intact**, for every driver
and every state of the devices, unless it starts a filter of an open device. -/
theorem failsIntact_badHandle_iff (drv : Fin N → Driver σ) (devs : Fin N → Device σ)
    (devNo fhandle : Int) (c : Call) (hbad : ∀ dev : Fin N, devNo = dev → BadHandle (devs dev) fhandle) :
    FailsIntact devs (c.run drv devNo fhandle (entry devs)) ↔
      ¬ (c = .startFilter ∧ Opened devs devNo) := by
  constructor
  · rintro ⟨ret, t, hr, -⟩ ⟨rfl, dev, rfl, hopen⟩
    rw [Call.run, startFilter_eq_none drv hopen (hbad dev rfl)] at hr
    exact nomatch hr
  · intro h
    by_cases ho : Opened devs devNo
    · obtain ⟨dev, rfl, hopen⟩ := ho
      exact Call.failsIntact_of_ne_start drv hopen (hbad dev rfl) fun hc => h ⟨hc, dev, rfl, hopen⟩
    · exact Call.failsIntact_of_not_opened drv ho c

/-- A driver without functions. -/
def bareDriver : Driver Unit := ⟨none, none, none, none, none⟩

/-- Two devices, the first one open, with no filter allocated. -/
def idleDevices (dev : Fin 2) : Device Unit :=
  ⟨(), fun i => ⟨0, false, false, i, 0, 0⟩, if dev = 0 then 1 else 0⟩

/-- Handle 5 was never allocated: `AM_DMX_FreeFilter` fails as it should. -/
theorem failsIntact_freeFilter :
    FailsIntact idleDevices (Call.freeFilter.run (fun _ => bareDriver) 0 5 (entry idleDevices)) :=
  (failsIntact_badHandle_iff (fun _ => bareDriver) idleDevices 0 5 .freeFilter
    (fun _ _ _ _ => rfl)).2 fun h => nomatch h.1

/-- `AM_DMX_StartFilter` on handle -1 dereferences `NULL`. -/
theorem failsIntact_startFilter :
    (∀ dev : Fin 2, (0 : Int) = dev → BadHandle (idleDevices dev) (-1)) ∧
      ¬ FailsIntact idleDevices
        (Call.startFilter.run (fun _ => bareDriver) 0 (-1) (entry idleDevices)) := by
  refine ⟨fun _ _ _ _ => rfl, ?_⟩
  rintro ⟨ret, t, hr, -⟩
  have hnone : amDmxStartFilter (fun _ => bareDriver) 0 (-1) (entry idleDevices) = none :=
    startFilter_eq_none (fun _ => bareDriver) (show 0 < (idleDevices 0).openCount from Int.one_pos)
      fun _ _ => rfl
  rw [Call.run, hnone] at hr
  exact nomatch hr

end

end VendorAmlogic.Demux.Api
