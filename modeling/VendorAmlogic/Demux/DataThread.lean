import Mathlib.Tactic
import VendorAmlogic.Lib.Run
import VendorAmlogic.Demux.DmxCalls

/-!
# The data thread

`dmx_data_thread` of `am_dmx/am_dmx.c` beside the calls of the interface, for one
device. The thread polls the driver, sets `DMX_FL_RUN_CB`, serves the filters that the
driver reports and clears the flag; `AM_DMX_Sync` waits for a moment when the flag is
clear. A section under the lock of the device is one step, and between two steps of the
thread any calls may come, also from the callback that runs. What the driver answers, and
what the thread sees where it reads a filter without the lock, comes with the step.

The driver of the software filters calls the callbacks of its filters inside its `poll`
(`data_cb`), where the flag is clear. No thread calls the interface of a device that another
one closes.
-/

namespace VendorAmlogic.Demux.Api

open VendorAmlogic.Lib

variable {σ : Type}

def errTimeout : Int := 2 ^ 24 + 10

/-! ## State -/

/-- Where the data thread is. `inPoll` is a callback inside the driver's `poll`, `call` has left
the lock with a callback to make, `running` is inside that callback. -/
inductive Phase where
  | exited
  | top
  | polling
  | inPoll (id : Fin 32) (cb data : Ptr)
  | begin (mask : BitVec 32)
  | loop (mask : BitVec 32) (id : Nat)
  | lock (mask : BitVec 32) (id : Fin 32)
  | call (mask : BitVec 32) (id : Fin 32) (cb data : Ptr) (sec : Option (List Byte))
  | running (mask : BitVec 32) (id : Fin 32) (cb data : Ptr)
  | finish

/-- The device and its thread. `runCb` is `DMX_FL_RUN_CB`; `closing` is an `AM_DMX_Close` that
waits for the thread in `pthread_join`, with `am_gAdpLock`. -/
structure Sys (σ : Type) where
  dev : Device σ
  enableThread : Bool
  runCb : Bool
  closing : Bool
  phase : Phase

/-- A callback that is called: `cb(dev->dev_no, id, sec, sec_len, data)`. -/
structure Callback where
  id : Fin 32
  cb : Ptr
  data : Ptr
  sec : Option (List Byte)

/-- A step. The last five are those of the thread, with the private data of the driver after its
call and what the call gives back. `check` is the look at `enable` and `used` without the lock. -/
inductive Event (σ : Type) where
  | dmxCall (fhandle : Int) (c : Call)
  | allocate
  | openDev (threadOk : Bool)
  | close
  | joined
  | sync
  | go
  | poll (drvData : σ) (ret : Int) (mask : BitVec 32)
  | dataCb (id : Fin 32) (sec : List Byte)
  | check (on : Bool)
  | read (drvData : σ) (ret : Int) (sec : List Byte)

/-! ## Opening and closing -/

/-- `AM_DMX_Open`; `threadOk` says that `pthread_create` succeeds. -/
def amDmxOpen (drv : DmxDriver σ) (s : Sys σ) (threadOk : Bool) : Option (Sys σ) :=
  if 0 < s.dev.openCount then
    some { s with dev := { s.dev with openCount := s.dev.openCount + 1 } }
  else do
    let (d, ret) ← callDev drv.openDev s.dev
    if ret ≠ 0 then return { s with dev := d }
    let s := { s with dev := d, enableThread := true, runCb := false }
    if threadOk then
      return { s with dev := { d with openCount := 1 }, phase := .top }
    else return s

/-- `AM_DMX_Close` until it waits for the thread, or all of it where the device is opened more than
once or not at all. -/
def amDmxClose (s : Sys σ) : Sys σ :=
  if s.dev.openCount ≤ 0 then s
  else if s.dev.openCount = 1 then { s with enableThread := false, closing := true }
  else { s with dev := { s.dev with openCount := s.dev.openCount - 1 } }

/-- The rest of `AM_DMX_Close`, with the thread gone. -/
def amDmxCloseJoined (drv : DmxDriver σ) (s : Sys σ) : Option (Sys σ) := do
  let (_, d) ← freeFn drv s.dev
  let (d, _) ← callDev drv.closeDev d
  return { s with dev := { d with openCount := d.openCount - 1 }, closing := false }

/-! ## The thread -/

/-- The driver's private data after a call of the thread. -/
def Sys.withDrvData (s : Sys σ) (drvData : σ) : Sys σ := { s with dev := { s.dev with drvData := drvData } }

def Sys.at (s : Sys σ) (phase : Phase) : Sys σ := { s with phase := phase }

/-- The section of `dmx_data_thread` under the lock that reads filter `id`: where it goes on. -/
def readFilter (s : Sys σ) (mask : BitVec 32) (id : Fin 32) (drvData : σ) (ret : Int)
    (sec : List Byte) : Sys σ :=
  let f := s.dev.filters id
  if ! f.enable ∨ ! f.used then s.at (.loop mask (id + 1))
  else
    let s := s.withDrvData drvData
    if ret = errTimeout then s.at (.call mask id f.cb f.userData none)
    else if ret ≠ 0 then s.at (.loop mask (id + 1))
    else s.at (.call mask id f.cb f.userData (some sec))

/-- A step of `dmx_data_thread` that needs nothing from the driver. -/
def dataThreadGo (s : Sys σ) : Sys σ × Option Callback :=
  match s.phase with
  | .top => (s.at (if s.enableThread then .polling else .exited), none)
  | .inPoll _ _ _ => (s.at .polling, none)
  | .begin mask => ({ s with runCb := true, phase := .loop mask 0 }, none)
  | .loop mask id => (s.at (if id < 32 then .loop mask (id + 1) else .finish), none)
  | .call mask id cb data sec =>
    if cb ≠ 0 then (s.at (.running mask id cb data), some ⟨id, cb, data, sec⟩)
    else (s.at (.loop mask (id + 1)), none)
  | .running mask id _ _ => (s.at (.loop mask (id + 1)), none)
  | .finish => ({ s with runCb := false, phase := .top }, none)
  | _ => (s, none)

/-- `data_cb` of the software filters, from their `poll`. -/
def dataCb (s : Sys σ) (id : Fin 32) (sec : List Byte) : Sys σ × Option Callback :=
  let f := s.dev.filters id
  if f.cb ≠ 0 then (s.at (.inPoll id f.cb f.userData), some ⟨id, f.cb, f.userData, some sec⟩)
  else (s, none)

def step (drv : DmxDriver σ) (s : Sys σ) : Event σ → Sys σ × Option Callback
  | .dmxCall fhandle c =>
    ((callFn drv fhandle c s.dev).elim s fun r => { s with dev := r.2 }, none)
  | .allocate => ((allocateFn drv s.dev).elim s fun r => { s with dev := r.2 }, none)
  | .openDev threadOk => ((amDmxOpen drv s threadOk).getD s, none)
  | .close => (amDmxClose s, none)
  | .joined => ((amDmxCloseJoined drv s).getD s, none)
  | .sync => (s, none)
  | .go => dataThreadGo s
  | .poll drvData ret mask =>
    let s := s.withDrvData drvData
    (s.at (if ret = 0 ∧ mask ≠ 0 then .begin mask else .top), none)
  | .dataCb id sec => dataCb s id sec
  | .check on =>
    match s.phase with
    | .loop mask id =>
      if h : id < 32 then (s.at (if on then .lock mask ⟨id, h⟩ else .loop mask (id + 1)), none)
      else (s, none)
    | _ => (s, none)
  | .read drvData ret sec =>
    match s.phase with
    | .lock mask id => (readFilter s mask id drvData ret sec, none)
    | _ => (s, none)

/-- The thread has filter `id` before it, and the driver has reported it. -/
def Phase.reported : Phase → Bool
  | .loop mask id => decide (id < 32) && mask.getLsbD id
  | _ => false

/-- The step may be the next one: `dmx_data_thread` is where it takes it, and a call comes back
(nothing dereferences `NULL`). The last `AM_DMX_Close` holds `am_gAdpLock` until the thread is gone,
and `AM_DMX_Sync`, of a thread other than the data thread, until the flag is clear. -/
def Enabled (drv : DmxDriver σ) (s : Sys σ) : Event σ → Prop
  | .dmxCall fhandle c => (callFn drv fhandle c s.dev).isSome
  | .allocate => (allocateFn drv s.dev).isSome
  | .openDev threadOk => s.closing = false ∧ (amDmxOpen drv s threadOk).isSome
  | .close => s.closing = false
  | .joined => s.closing = true ∧ s.phase = .exited ∧ (amDmxCloseJoined drv s).isSome
  | .sync => 0 < s.dev.openCount ∧ s.runCb = false
  | .go =>
    match s.phase with
    | .exited | .polling | .lock _ _ => False
    | p => p.reported = false
  | .poll _ _ _ | .dataCb _ _ => s.phase = .polling
  | .check _ => s.phase.reported = true
  | .read _ _ _ => ∃ mask id, s.phase = .lock mask id

/-! ## What a step does with the filters -/

def Event.starts (j : Fin 32) : Event σ → Prop
  | .dmxCall fhandle c => c.starts = true ∧ fhandle = j
  | _ => False

def Event.resets (j : Fin 32) : Event σ → Prop
  | .dmxCall fhandle c => c.resets = true ∧ fhandle = j
  | _ => False

/-- The step is a callback that the driver calls itself. -/
def Event.fromPoll : Event σ → Bool
  | .dataCb _ _ => true
  | _ => false

def Sys.table (s : Sys σ) : Fin 32 → Entry := s.dev.table

/-- The callback that the thread is about to call or inside of. -/
def Phase.pending : Phase → Option (Fin 32 × Ptr × Ptr)
  | .inPoll id cb data | .call _ id cb data _ | .running _ id cb data => some (id, cb, data)
  | _ => none

/-- The thread is between setting `DMX_FL_RUN_CB` and clearing it. -/
def Phase.serving : Phase → Bool
  | .loop _ _ | .lock _ _ | .call _ _ _ _ _ | .running _ _ _ _ | .finish => true
  | _ => false

section
variable {drv : DmxDriver σ} {s : Sys σ}

theorem amDmxOpen_spec (hk : drv.Keeps) {threadOk : Bool} {s' : Sys σ}
    (h : amDmxOpen drv s threadOk = some s') :
    s'.table = s.table ∧
      (0 < s.dev.openCount ∧ 0 < s'.dev.openCount ∧ s'.phase = s.phase ∧ s'.runCb = s.runCb ∨
        ¬ 0 < s.dev.openCount ∧ (s'.phase = .top ∧ 0 < s'.dev.openCount ∧ s'.runCb = false ∨
          s'.phase = s.phase ∧ s'.dev.openCount = s.dev.openCount ∧
            (s'.runCb = s.runCb ∨ s'.runCb = false))) := by
  unfold amDmxOpen at h
  split at h
  next hopen =>
    obtain rfl := Option.some.inj h
    refine ⟨rfl, .inl ⟨hopen, ?_, rfl, rfl⟩⟩
    change 0 < s.dev.openCount + 1
    omega
  next hopen =>
    obtain ⟨⟨d, ret⟩, hd, h⟩ := Option.bind_eq_some_iff.mp h
    obtain ⟨htable, hcount⟩ := callDev_spec hk.openDev hd
    dsimp only at h
    split at h
    next =>
      obtain rfl := Option.some.inj h
      exact ⟨htable, .inr ⟨hopen, .inr ⟨rfl, hcount, .inl rfl⟩⟩⟩
    next =>
      split at h
      next =>
        obtain rfl := Option.some.inj h
        exact ⟨htable, .inr ⟨hopen, .inl ⟨rfl, Int.one_pos, rfl⟩⟩⟩
      next =>
        obtain rfl := Option.some.inj h
        exact ⟨htable, .inr ⟨hopen, .inr ⟨rfl, hcount, .inr rfl⟩⟩⟩

theorem amDmxCloseJoined_spec (hk : drv.Keeps) {s' : Sys σ} (h : amDmxCloseJoined drv s = some s') :
    Quiets s.table s'.table ∧ s'.phase = s.phase ∧ s'.runCb = s.runCb := by
  obtain ⟨⟨_, d⟩, hfree, h⟩ := Option.bind_eq_some_iff.mp h
  obtain ⟨⟨d', ret⟩, hclose, h⟩ := Option.bind_eq_some_iff.mp h
  obtain rfl := Option.some.inj h
  exact ⟨(freeFn_spec hk hfree).1.trans (.of_eq (callDev_spec hk.closeDev hclose).1), rfl, rfl⟩

theorem readFilter_table {mask : BitVec 32} {id : Fin 32} {drvData : σ} {ret : Int}
    {sec : List Byte} : (readFilter s mask id drvData ret sec).table = s.table := by
  unfold readFilter
  dsimp only
  split_ifs <;> rfl

theorem dataThreadGo_dev : (dataThreadGo s).1.dev = s.dev := by
  unfold dataThreadGo
  split <;> try rfl
  split <;> rfl

/-- **What a step does with the filters**: only `AM_DMX_StartFilter` enables one, and only
`AM_DMX_SetCallback` replaces a callback. -/
theorem step_touches (hk : drv.Keeps) (e : Event σ) :
    Touches (fun j => e.starts j) (fun j => e.resets j) s.table (step drv s e).1.table := by
  cases e with
  | dmxCall fhandle c =>
    cases h : callFn drv fhandle c s.dev with
    | none =>
      simp only [step, h, Option.elim_none]
      exact .of_eq rfl
    | some r =>
      simp only [step, h, Option.elim_some]
      exact (callFn_does hk h).touches
  | allocate =>
    cases h : allocateFn drv s.dev with
    | none =>
      simp only [step, h, Option.elim_none]
      exact .of_eq rfl
    | some r =>
      simp only [step, h, Option.elim_some]
      exact (allocateFn_spec hk h).1.1.mono (fun _ => False.elim) fun _ => False.elim
  | openDev threadOk =>
    cases h : amDmxOpen drv s threadOk with
    | none =>
      simp only [step, h, Option.getD_none]
      exact .of_eq rfl
    | some s' =>
      simp only [step, h, Option.getD_some]
      exact .of_eq (amDmxOpen_spec hk h).1
  | close =>
    apply Touches.of_eq
    change (amDmxClose s).table = s.table
    unfold amDmxClose
    split
    · rfl
    · split <;> rfl
  | joined =>
    cases h : amDmxCloseJoined drv s with
    | none =>
      simp only [step, h, Option.getD_none]
      exact .of_eq rfl
    | some s' =>
      simp only [step, h, Option.getD_some]
      exact (amDmxCloseJoined_spec hk h).1.mono (fun _ => False.elim) fun _ => False.elim
  | sync => exact .of_eq rfl
  | go => exact .of_eq (congrArg Device.table dataThreadGo_dev)
  | poll drvData ret mask => exact .of_eq rfl
  | dataCb id sec =>
    apply Touches.of_eq
    change (dataCb s id sec).1.table = s.table
    unfold dataCb
    dsimp only
    split <;> rfl
  | check on =>
    apply Touches.of_eq
    simp only [step]
    split
    · split <;> rfl
    · rfl
  | read drvData ret sec =>
    apply Touches.of_eq
    simp only [step]
    split
    · exact readFilter_table
    · rfl

end

/-! ## Invariants -/

/-- The state of the device and of its thread, in every run where the driver calls no callback
itself: the flag is set exactly while filters are served, the thread is gone when the device is not
open, and no filter is enabled that is not allocated. -/
structure Inv (s : Sys σ) : Prop where
  flag : s.runCb = s.phase.serving
  gone : ¬ 0 < s.dev.openCount → s.phase = .exited
  poll : ∀ id cb data, s.phase ≠ .inPoll id cb data
  settled : ∀ j, (s.table j).used = false → (s.table j).enable = false

/-- `dmx_devices` before anything is opened. -/
def Sys.closed (drvData : σ) : Sys σ :=
  ⟨⟨drvData, fun _ => ⟨0, false, false, 0, 0, 0⟩, 0⟩, false, false, false, .exited⟩

theorem inv_closed (drvData : σ) : Inv (Sys.closed drvData) :=
  ⟨rfl, fun _ => rfl, fun _ _ _ h => Phase.noConfusion h, fun _ _ => rfl⟩

section
variable {drv : DmxDriver σ} {s : Sys σ}

/-- A step that is not about the thread. -/
theorem Inv.of_phase {s' : Sys σ} (h : Inv s) (hphase : s'.phase = s.phase) (hrun : s'.runCb = s.runCb)
    (hopen : s'.dev.openCount = s.dev.openCount)
    (hsettled : ∀ j, (s'.table j).used = false → (s'.table j).enable = false) : Inv s' where
  flag := by rw [hrun, hphase, h.flag]
  gone := by rw [hopen, hphase]; exact h.gone
  poll := by rw [hphase]; exact h.poll
  settled := hsettled

/-- A step of the thread, to a phase that goes with the flag. -/
theorem Inv.of_thread {s' : Sys σ} (h : Inv s) (hdev : s'.dev.openCount = s.dev.openCount)
    (htable : s'.table = s.table) (halive : s.phase ≠ .exited)
    (hflag : s'.runCb = s'.phase.serving) (hpoll : ∀ id cb data, s'.phase ≠ .inPoll id cb data) :
    Inv s' where
  flag := hflag
  gone := by
    rw [hdev]
    exact fun hshut => absurd (h.gone hshut) halive
  poll := hpoll
  settled := by rw [htable]; exact h.settled

theorem Inv.at (h : Inv s) (halive : s.phase ≠ .exited) {p : Phase} (hflag : s.phase.serving = p.serving)
    (hpoll : ∀ id cb data, p ≠ .inPoll id cb data) : Inv (s.at p) :=
  h.of_thread rfl rfl halive (h.flag.trans hflag) hpoll

theorem Inv.withDrvData (h : Inv s) (drvData : σ) : Inv (s.withDrvData drvData) :=
  h.of_phase rfl rfl rfl h.settled

theorem inv_go (h : Inv s) (hen : Enabled drv s .go) : Inv (dataThreadGo s).1 := by
  have halive : s.phase ≠ .exited := by
    intro hp
    rw [Enabled, hp] at hen
    exact hen
  unfold dataThreadGo
  cases hp : s.phase with
  | exited => exact absurd hp halive
  | top =>
    apply h.at halive
    · rw [hp]
      split <;> rfl
    · intro id cb data
      split <;> exact Phase.noConfusion
  | polling => exact h
  | inPoll id cb data => exact absurd hp (h.poll id cb data)
  | begin mask =>
    exact h.of_thread rfl rfl halive rfl fun _ _ _ => Phase.noConfusion
  | loop mask id =>
    apply h.at halive
    · rw [hp]
      split <;> rfl
    · intro id cb data
      split <;> exact Phase.noConfusion
  | lock mask id => exact h
  | call mask id cb data sec =>
    dsimp only
    split
    · exact h.at halive (by rw [hp]; rfl) fun _ _ _ => Phase.noConfusion
    · exact h.at halive (by rw [hp]; rfl) fun _ _ _ => Phase.noConfusion
  | running mask id cb data => exact h.at halive (by rw [hp]; rfl) fun _ _ _ => Phase.noConfusion
  | finish => exact h.of_thread rfl rfl halive rfl fun _ _ _ => Phase.noConfusion

theorem inv_readFilter (h : Inv s) {mask : BitVec 32} {id : Fin 32} (hp : s.phase = .lock mask id)
    (drvData : σ) (ret : Int) (sec : List Byte) : Inv (readFilter s mask id drvData ret sec) := by
  have halive : s.phase ≠ .exited := by
    rw [hp]
    exact Phase.noConfusion
  have hd := h.withDrvData drvData
  unfold readFilter
  dsimp only
  split_ifs
  · exact h.at halive (by rw [hp]; rfl) fun _ _ _ => Phase.noConfusion
  · exact hd.at halive (by rw [Sys.withDrvData, hp]; rfl) fun _ _ _ => Phase.noConfusion
  · exact hd.at halive (by rw [Sys.withDrvData, hp]; rfl) fun _ _ _ => Phase.noConfusion
  · exact hd.at halive (by rw [Sys.withDrvData, hp]; rfl) fun _ _ _ => Phase.noConfusion

/-- **The invariant is kept** by every step, but for a callback out of the driver's `poll`. -/
theorem inv_step (hk : drv.Keeps) {e : Event σ} (h : Inv s) (hen : Enabled drv s e)
    (he : e.fromPoll = false) : Inv (step drv s e).1 := by
  have hsettled : ∀ j, ((step drv s e).1.table j).used = false →
      ((step drv s e).1.table j).enable = false := fun j =>
    (step_touches hk e j).settled (h.settled j)
  cases e with
  | dmxCall fhandle c =>
    obtain ⟨r, hr⟩ := Option.isSome_iff_exists.mp hen
    simp only [step, hr, Option.elim_some] at hsettled ⊢
    exact h.of_phase rfl rfl (callFn_openCount hk hr) hsettled
  | allocate =>
    obtain ⟨r, hr⟩ := Option.isSome_iff_exists.mp hen
    simp only [step, hr, Option.elim_some] at hsettled ⊢
    exact h.of_phase rfl rfl (allocateFn_spec hk hr).2 hsettled
  | openDev threadOk =>
    obtain ⟨s', hs'⟩ := Option.isSome_iff_exists.mp hen.2
    simp only [step, hs', Option.getD_some] at hsettled ⊢
    obtain ⟨-, hcases⟩ := amDmxOpen_spec hk hs'
    obtain ⟨hopen, hopen', hphase, hrun⟩ | ⟨hshut, ⟨hphase, hopen', hrun⟩ | ⟨hphase, hopen', hrun⟩⟩ :=
      hcases
    · exact ⟨by rw [hrun, hphase, h.flag], fun hn => absurd hopen' hn,
        fun id cb data => hphase ▸ h.poll id cb data, hsettled⟩
    · exact ⟨by rw [hrun, hphase]; rfl, fun hn => absurd hopen' hn,
        fun id cb data => hphase ▸ Phase.noConfusion, hsettled⟩
    · have hgone := h.gone hshut
      have hfalse : s'.runCb = false := by
        obtain hr | hr := hrun
        · rw [hr, h.flag, hgone]
          rfl
        · exact hr
      exact ⟨by rw [hfalse, hphase, hgone]; rfl, fun _ => hphase.trans hgone,
        fun id cb data => hphase ▸ h.poll id cb data, hsettled⟩
  | close =>
    change Inv (amDmxClose s)
    unfold amDmxClose
    split
    next => exact h
    next hopen =>
      split
      next hone =>
        exact ⟨h.flag, h.gone, h.poll, h.settled⟩
      next hmore =>
        refine ⟨h.flag, fun hn => ?_, h.poll, h.settled⟩
        change ¬ 0 < s.dev.openCount - 1 at hn
        omega
  | joined =>
    obtain ⟨-, hgone, hsome⟩ := hen
    obtain ⟨s', hs'⟩ := Option.isSome_iff_exists.mp hsome
    simp only [step, hs', Option.getD_some] at hsettled ⊢
    obtain ⟨-, hphase, hrun⟩ := amDmxCloseJoined_spec hk hs'
    exact ⟨by rw [hrun, hphase, h.flag], fun _ => hphase.trans hgone,
      fun id cb data => hphase ▸ h.poll id cb data, hsettled⟩
  | sync => exact h
  | go => exact inv_go h hen
  | poll drvData ret mask =>
    have hpoll : s.phase = .polling := hen
    refine (h.withDrvData drvData).at (by rw [Sys.withDrvData, hpoll]; exact Phase.noConfusion) ?_ ?_
    · rw [Sys.withDrvData, hpoll]
      split <;> rfl
    · intro id cb data
      split <;> exact Phase.noConfusion
  | dataCb id sec => exact Bool.noConfusion he
  | check on =>
    have hp : s.phase.reported = true := hen
    cases hph : s.phase with
    | loop mask id =>
      simp only [step, hph]
      split
      · refine h.at (by rw [hph]; exact Phase.noConfusion) ?_ ?_
        · rw [hph]
          split <;> rfl
        · intro id cb data
          split <;> exact Phase.noConfusion
      · exact h
    | _ =>
      rw [hph] at hp
      exact Bool.noConfusion hp
  | read drvData ret sec =>
    obtain ⟨mask, id, hp⟩ := hen
    simp only [step, hp]
    exact inv_readFilter h hp drvData ret sec

/-! ## The callback that the thread has before it -/

/-- A callback comes before the thread only out of the lock, with its filter enabled and as it is
set there. -/
theorem step_pending (hk : drv.Keeps) {e : Event σ} (hen : Enabled drv s e) (he : e.fromPoll = false)
    {j : Fin 32} {cb data : Ptr} (hp : (step drv s e).1.phase.pending = some (j, cb, data)) :
    s.phase.pending = some (j, cb, data) ∨ (s.table j).enable = true ∧ (s.table j).cb = cb ∧
      (s.table j).userData = data := by
  cases e with
  | dmxCall fhandle c =>
    obtain ⟨r, hr⟩ := Option.isSome_iff_exists.mp hen
    simp only [step, hr, Option.elim_some] at hp
    exact .inl hp
  | allocate =>
    obtain ⟨r, hr⟩ := Option.isSome_iff_exists.mp hen
    simp only [step, hr, Option.elim_some] at hp
    exact .inl hp
  | openDev threadOk =>
    obtain ⟨s', hs'⟩ := Option.isSome_iff_exists.mp hen.2
    simp only [step, hs', Option.getD_some] at hp
    obtain ⟨-, ⟨-, -, hphase, -⟩ | ⟨-, ⟨hphase, -⟩ | ⟨hphase, -⟩⟩⟩ := amDmxOpen_spec hk hs'
    · exact .inl (hphase ▸ hp)
    · rw [hphase] at hp
      exact nomatch hp
    · exact .inl (hphase ▸ hp)
  | close =>
    have hphase : (amDmxClose s).phase = s.phase := by
      unfold amDmxClose
      split
      · rfl
      · split <;> rfl
    exact .inl (hphase ▸ hp)
  | joined =>
    obtain ⟨s', hs'⟩ := Option.isSome_iff_exists.mp hen.2.2
    simp only [step, hs', Option.getD_some] at hp
    exact .inl ((amDmxCloseJoined_spec hk hs').2.1 ▸ hp)
  | sync => exact .inl hp
  | go =>
    change (dataThreadGo s).1.phase.pending = _ at hp
    unfold dataThreadGo at hp
    cases hph : s.phase <;> rw [hph] at hp <;> dsimp only [Sys.at] at hp
    case top => split at hp <;> exact nomatch hp
    case loop => split at hp <;> exact nomatch hp
    case call =>
      split at hp
      · exact .inl hp
      · exact nomatch hp
    case polling => rw [hph] at hp; exact nomatch hp
    case exited => rw [hph] at hp; exact nomatch hp
    case lock => rw [hph] at hp; exact nomatch hp
    all_goals exact nomatch hp
  | poll drvData ret mask =>
    dsimp only [step, Sys.at] at hp
    split at hp <;> exact nomatch hp
  | dataCb id sec => exact Bool.noConfusion he
  | check on =>
    have hrep : s.phase.reported = true := hen
    cases hph : s.phase with
    | loop mask id =>
      simp only [step, hph] at hp
      split at hp
      · dsimp only [Sys.at] at hp
        split at hp <;> exact nomatch hp
      · rw [hph] at hp
        exact nomatch hp
    | _ =>
      rw [hph] at hrep
      exact Bool.noConfusion hrep
  | read drvData ret sec =>
    obtain ⟨mask, id, hph⟩ := hen
    simp only [step, hph] at hp
    have hon : ∀ {sec}, (Phase.call mask id (s.dev.filters id).cb (s.dev.filters id).userData sec).pending =
        some (j, cb, data) → ¬ ((! (s.dev.filters id).enable) = true ∨ (! (s.dev.filters id).used) = true) →
        (s.table j).enable = true ∧ (s.table j).cb = cb ∧ (s.table j).userData = data := by
      intro sec hpend hoff
      obtain ⟨rfl, hcb⟩ := Prod.mk.inj (Option.some.inj hpend)
      obtain ⟨rfl, rfl⟩ := Prod.mk.inj hcb
      refine ⟨?_, rfl, rfl⟩
      change (s.dev.filters id).enable = true
      simpa using not_or.mp hoff |>.1
    unfold readFilter at hp
    dsimp only at hp
    split_ifs at hp with hoff
    · exact nomatch hp
    · exact .inr (hon hp hoff)
    · exact nomatch hp
    · exact .inr (hon hp hoff)

/-- The callback that is called is the one that the thread had before it. -/
theorem step_callback {e : Event σ} (he : e.fromPoll = false) {x : Callback}
    (hx : (step drv s e).2 = some x) : s.phase.pending = some (x.id, x.cb, x.data) := by
  cases e with
  | go =>
    change (dataThreadGo s).2 = _ at hx
    unfold dataThreadGo at hx
    cases hph : s.phase <;> rw [hph] at hx <;> dsimp only at hx
    case call mask id cb data sec =>
      split at hx
      · obtain rfl := Option.some.inj hx
        rfl
      · exact nomatch hx
    all_goals exact nomatch hx
  | dataCb id sec => exact Bool.noConfusion he
  | check on =>
    simp only [step] at hx
    split at hx
    · split at hx <;> exact nomatch hx
    · exact nomatch hx
  | read drvData ret sec =>
    simp only [step] at hx
    split at hx <;> exact nomatch hx
  | _ => exact nomatch hx

end

/-! ## Quiescence -/

/-- A step of a run where the driver calls no callback itself. -/
def Ok (drv : DmxDriver σ) (s : Sys σ) (e : Event σ) : Prop := Enabled drv s e ∧ e.fromPoll = false

/-- The states that the device comes to, from before it is opened for the first time. -/
def Reachable (drv : DmxDriver σ) (s : Sys σ) : Prop :=
  ∃ drvData is, Each (Ok drv) (step drv) (Sys.closed drvData) is ∧
    (run (step drv) (Sys.closed drvData) is).1 = s

/-- A driver without functions of its own. -/
def bareDmxDriver : DmxDriver Unit := ⟨bareDriver, none, none, none⟩

theorem bareDmxDriver_keeps : bareDmxDriver.Keeps where
  base := by
    constructor <;> exact fun _ h => nomatch h
  openDev := fun _ h => nomatch h
  closeDev := fun _ h => nomatch h
  allocFilter := fun _ h => nomatch h

/-- A device is opened; filter 0 gets callback 7 and is started. -/
def setUp : List (Event Unit) :=
  [.openDev true, .allocate, .dmxCall 0 (.setCallback 7 9), .dmxCall 0 .startFilter, .go]

def running : Sys Unit := (run (step bareDmxDriver) (Sys.closed ()) setUp).1

theorem reachable_running : Reachable bareDmxDriver running :=
  ⟨(), setUp, ⟨⟨⟨rfl, rfl⟩, rfl⟩, ⟨rfl, rfl⟩, ⟨rfl, rfl⟩, ⟨rfl, rfl⟩, ⟨rfl, rfl⟩, trivial⟩, rfl⟩

/-- From here on filter `j` has callbacks that `A` allows only: `g` says so of the filter, and the
thread has no other before it. -/
structure Quiet (g : Entry → Prop) (A : Ptr → Ptr → Prop) (j : Fin 32) (s : Sys σ) : Prop where
  entry : g (s.table j)
  pending : ∀ cb data, s.phase.pending = some (j, cb, data) → A cb data

section
variable {drv : DmxDriver σ} {s : Sys σ} {g : Entry → Prop} {A : Ptr → Ptr → Prop} {j : Fin 32}
  {S R : Prop}

theorem Reachable.inv (hk : drv.Keeps) (h : Reachable drv s) : Inv s := by
  obtain ⟨drvData, is, hok, rfl⟩ := h
  exact run_inv (fun s e h hok => inv_step hk h hok.1 hok.2) (inv_closed drvData) hok

theorem Reachable.after (h : Reachable drv s) {is : List (Event σ)}
    (hok : Each (Ok drv) (step drv) s is) : Reachable drv (run (step drv) s is).1 := by
  obtain ⟨drvData, js, hjs, rfl⟩ := h
  exact ⟨drvData, js ++ is, each_append.mpr ⟨hjs, hok⟩, by rw [run_append]⟩

theorem quiet_step (hk : drv.Keeps) (hA : ∀ e, g e → e.enable = true → A e.cb e.userData)
    (hg : ∀ e e', g e → e.Goes S R e' → g e') {e : Event σ} (hok : Ok drv s e) (hS : e.starts j → S)
    (hR : e.resets j → R) (hq : Quiet g A j s) :
    Quiet g A j (step drv s e).1 ∧
      ∀ x, (step drv s e).2 = some x → x.id = j → A x.cb x.data := by
  refine ⟨⟨hg _ _ hq.entry ((step_touches hk e j).mono hS hR), fun cb data hp => ?_⟩, ?_⟩
  · rcases step_pending hk hok.1 hok.2 hp with hp | ⟨hon, rfl, rfl⟩
    · exact hq.pending cb data hp
    · exact hA _ hq.entry hon
  · rintro x hx rfl
    exact hq.pending x.cb x.data (step_callback hok.2 hx)

/-- **A return of `AM_DMX_Sync` makes quiet**: what holds of a filter before it holds of all its
callbacks after it. -/
theorem quiet_after_sync (hk : drv.Keeps) (hA : ∀ e, g e → e.enable = true → A e.cb e.userData)
    (hg : ∀ e e', g e → e.Goes S R e' → g e') (hinv : Inv s) (hentry : g (s.table j))
    {mid post : List (Event σ)} (hok : Each (Ok drv) (step drv) s (mid ++ .sync :: post))
    (hmid : ∀ e ∈ mid ++ post, (e.starts j → S) ∧ (e.resets j → R)) :
    Quiet g A j (run (step drv) s mid).1 ∧
      ∀ o ∈ (run (step drv) (run (step drv) s mid).1 post).2, ∀ x, o = some x → x.id = j →
        A x.cb x.data := by
  obtain ⟨hokmid, hsync, hokpost⟩ := each_append.mp hok
  obtain ⟨hmid, hpost⟩ := List.forall_mem_append.mp hmid
  have hlast : Inv (run (step drv) s mid).1 ∧ g ((run (step drv) s mid).1.table j) := by
    refine run_inv (fun s e (h : Inv s ∧ g (s.table j)) hok => ?_) ⟨hinv, hentry⟩
      (hokmid.and_forall_mem hmid)
    obtain ⟨hinv, hentry⟩ := h
    obtain ⟨hok, hS, hR⟩ := hok
    exact ⟨inv_step hk hinv hok.1 hok.2, hg _ _ hentry ((step_touches hk e j).mono hS hR)⟩
  -- with the flag clear no callback is before the thread
  have hquiet : Quiet g A j (run (step drv) s mid).1 := by
    refine ⟨hlast.2, fun cb data hp => ?_⟩
    have hserving : (run (step drv) s mid).1.phase.serving = false := hlast.1.flag ▸ hsync.1.2
    cases hph : (run (step drv) s mid).1.phase with
    | inPoll id cb data => exact absurd hph (hlast.1.poll id cb data)
    | call mask id cb data sec => exact absurd hserving (by rw [hph]; exact Bool.noConfusion)
    | running mask id cb data => exact absurd hserving (by rw [hph]; exact Bool.noConfusion)
    | _ =>
      rw [hph] at hp
      exact nomatch hp
  refine ⟨hquiet, run_out (fun s e (hq : Quiet g A j s) hok => ?_) hquiet
    (hokpost.and_forall_mem hpost)⟩
  obtain ⟨hok, hS, hR⟩ := hok
  exact quiet_step hk hA hg hok hS hR hq

/-- The step leaves filter `j` stopped: the filter is stopped, given back or given new parameters,
or it is a filter that was just allocated. -/
def Stops (drv : DmxDriver σ) (s : Sys σ) (j : Fin 32) : Event σ → Prop
  | .dmxCall fhandle c => c.stops = true ∧ fhandle = j ∧ ∃ d, callFn drv fhandle c s.dev = some (0, d)
  | .allocate => ∃ ret d, allocateFn drv s.dev = some ((ret, some j), d)
  | _ => False

theorem Stops.enable (hk : drv.Keeps) (hinv : Inv s) {e : Event σ} (h : Stops drv s j e) :
    ((step drv s e).1.table j).enable = false := by
  cases e with
  | dmxCall fhandle c =>
    obtain ⟨hstops, hj, d, hcall⟩ := h
    simp only [step, hcall, Option.elim_some]
    exact (callFn_does hk hcall).stopped hstops rfl j hj
  | allocate =>
    obtain ⟨ret, d, halloc⟩ := h
    simp only [step, halloc, Option.elim_some]
    obtain ⟨hfree, hsame⟩ := (allocateFn_spec hk halloc).1.2 j rfl
    exact hsame.trans (hinv.settled j hfree)
  | _ => exact h.elim

/-- **A stopped filter is quiet after `AM_DMX_Sync`**: however the calls of the program and the data
thread interleave, once a filter was stopped and `AM_DMX_Sync` has come back, no callback of the
filter runs, and none is called until the filter is started again. -/
theorem no_callback_of_stopped (hk : drv.Keeps) (hs : Reachable drv s) {e : Event σ}
    {mid post : List (Event σ)} (hok : Each (Ok drv) (step drv) s (e :: mid ++ .sync :: post))
    (hstop : Stops drv s j e) (hstart : ∀ x ∈ mid ++ post, ¬ x.starts j) :
    (∀ cb data, (run (step drv) s (e :: mid)).1.phase.pending ≠ some (j, cb, data)) ∧
      ∀ o ∈ (run (step drv) (run (step drv) s (e :: mid)).1 post).2, ∀ x, o = some x → x.id ≠ j := by
  have hinv := hs.inv hk
  have hg : ∀ e e' : Entry, e.enable = false → e.Goes False True e' → e'.enable = false := by
    intro e e' hoff hgo
    refine Bool.eq_false_iff.mpr fun hon => ?_
    rcases hgo.enable hon with h | h
    · exact Bool.false_ne_true (hoff.symm.trans h)
    · exact h
  obtain ⟨hquiet, hout⟩ := quiet_after_sync (A := fun _ _ => False) hk
    (fun e h hon => Bool.false_ne_true (h.symm.trans hon)) hg
    (inv_step hk hinv hok.1.1 hok.1.2) (hstop.enable hk hinv) hok.2
    fun x hx => ⟨hstart x hx, fun _ => trivial⟩
  exact ⟨fun cb data hp => hquiet.pending cb data hp, fun o ho x hx hj => hout o ho x hx hj⟩

/-- Filter 0 is stopped and synchronised; the driver still reports it. -/
theorem no_callback_of_stopped_zero :
    (∀ cb data, (run (step bareDmxDriver) running [.dmxCall 0 .stopFilter]).1.phase.pending ≠
      some (0, cb, data)) ∧
    ∀ o ∈ (run (step bareDmxDriver) (run (step bareDmxDriver) running
      [.dmxCall 0 .stopFilter]).1 [.poll () 0 1, .go, .check true, .read () 0 [0, 1]]).2,
      ∀ x, o = some x → x.id ≠ 0 := by
  have hok : Each (Ok bareDmxDriver) (step bareDmxDriver) running
      (.dmxCall 0 .stopFilter :: [] ++ .sync :: [.poll () 0 1, .go, .check true, .read () 0 [0, 1]]) :=
    ⟨⟨rfl, rfl⟩, ⟨⟨by decide, rfl⟩, rfl⟩, ⟨rfl, rfl⟩, ⟨rfl, rfl⟩, ⟨rfl, rfl⟩, ⟨⟨_, _, rfl⟩, rfl⟩, trivial⟩
  exact no_callback_of_stopped (j := 0) bareDmxDriver_keeps reachable_running hok ⟨rfl, rfl, _, rfl⟩
    (by simp [Event.starts, Call.starts])

/-- **A replaced callback is gone after `AM_DMX_Sync`**: once `AM_DMX_SetCallback` has set the
callback of a filter and `AM_DMX_Sync` has come back, the callbacks of the filter are calls of that
function with that data, until another one is set. -/
theorem callback_of_set (hk : drv.Keeps) (hs : Reachable drv s) {cb data : Ptr} {d : Device σ}
    {mid post : List (Event σ)}
    (hok : Each (Ok drv) (step drv) s (.dmxCall j (.setCallback cb data) :: mid ++ .sync :: post))
    (hset : callFn drv j (.setCallback cb data) s.dev = some (0, d))
    (hreset : ∀ x ∈ mid ++ post, ¬ x.resets j) :
    ∀ o ∈ (run (step drv) (run (step drv) s (.dmxCall j (.setCallback cb data) :: mid)).1 post).2,
      ∀ x, o = some x → x.id = j → x.cb = cb ∧ x.data = data := by
  have hentry : ((step drv s (.dmxCall j (.setCallback cb data))).1.table j).cb = cb ∧
      ((step drv s (.dmxCall j (.setCallback cb data))).1.table j).userData = data := by
    simp only [step, hset, Option.elim_some]
    exact (callFn_does hk hset).reset cb data rfl rfl j rfl
  have hg : ∀ e e' : Entry, e.cb = cb ∧ e.userData = data → e.Goes True False e' →
      e'.cb = cb ∧ e'.userData = data := by
    rintro e e' ⟨hcb, hdata⟩ hgo
    rcases hgo.cb with ⟨hcb', hdata'⟩ | h
    · exact ⟨hcb'.trans hcb, hdata'.trans hdata⟩
    · exact h.elim
  exact (quiet_after_sync (A := fun cb' data' => cb' = cb ∧ data' = data) hk (fun e h _ => h) hg
    (inv_step hk (hs.inv hk) hok.1.1 hok.1.2) hentry hok.2 fun x hx => ⟨fun _ => trivial, hreset x hx⟩).2

/-- Filter 0 is served with the callback that replaced the first one. -/
theorem callback_of_set_zero :
    Reachable bareDmxDriver running ∧
    ∀ o ∈ (run (step bareDmxDriver) (run (step bareDmxDriver) running
      [.dmxCall 0 (.setCallback 8 3)]).1 [.poll () 0 1, .go, .check true, .read () 0 [0, 1], .go]).2,
      ∀ x, o = some x → x.id = 0 → x.cb = 8 ∧ x.data = 3 := by
  have hok : Each (Ok bareDmxDriver) (step bareDmxDriver) running (.dmxCall 0 (.setCallback 8 3) :: [] ++
      .sync :: [.poll () 0 1, .go, .check true, .read () 0 [0, 1], .go]) :=
    ⟨⟨rfl, rfl⟩, ⟨⟨by decide, rfl⟩, rfl⟩, ⟨rfl, rfl⟩, ⟨rfl, rfl⟩, ⟨rfl, rfl⟩, ⟨⟨_, _, rfl⟩, rfl⟩,
      ⟨rfl, rfl⟩, trivial⟩
  exact ⟨reachable_running,
    callback_of_set (j := 0) bareDmxDriver_keeps reachable_running hok rfl (by simp [Event.resets])⟩

/-! ## The wait of `AM_DMX_Sync` -/

/-- The step is one of the data thread. -/
def Event.ofThread : Event σ → Bool
  | .go | .poll _ _ _ | .dataCb _ _ | .check _ | .read _ _ _ => true
  | _ => false

/-- How many steps the thread takes at most before it has cleared the flag. -/
def Phase.left : Phase → Nat
  | .loop _ id => 4 * (32 - id) + 2
  | .lock _ id => 4 * (32 - id) + 1
  | .call _ id _ _ _ => 4 * (32 - id)
  | .running _ id _ _ => 4 * (32 - id) - 1
  | .finish => 1
  | _ => 0

theorem Phase.left_le (p : Phase) : p.left ≤ 130 := by
  cases p <;> simp only [Phase.left] <;> omega

theorem readFilter_phase (s : Sys σ) (mask : BitVec 32) (id : Fin 32) (drvData : σ) (ret : Int)
    (sec : List Byte) :
    (readFilter s mask id drvData ret sec).phase = .loop mask (id + 1) ∨
      ∃ cb data sec', (readFilter s mask id drvData ret sec).phase = .call mask id cb data sec' := by
  unfold readFilter
  dsimp only
  split_ifs
  · exact .inl rfl
  · exact .inr ⟨_, _, _, rfl⟩
  · exact .inl rfl
  · exact .inr ⟨_, _, _, rfl⟩

/-- A step of the thread that serves brings it nearer to the end of its round. -/
theorem left_thread {e : Event σ} (hok : Ok drv s e) (he : e.ofThread = true)
    (hserving : s.phase.serving = true) : (step drv s e).1.phase.left < s.phase.left := by
  obtain ⟨hen, hpoll⟩ := hok
  cases e with
  | go =>
    change (dataThreadGo s).1.phase.left < s.phase.left
    unfold dataThreadGo
    cases hph : s.phase with
    | loop mask id =>
      dsimp only [Sys.at]
      split <;> simp only [Phase.left] <;> omega
    | call mask id cb data sec =>
      dsimp only
      split <;> simp only [Sys.at, Phase.left] <;> omega
    | running mask id cb data =>
      simp only [Sys.at, Phase.left]
      omega
    | finish => exact Nat.one_pos
    | lock mask id =>
      rw [Enabled, hph] at hen
      exact hen.elim
    | _ =>
      rw [hph] at hserving
      exact Bool.noConfusion hserving
  | poll drvData ret mask =>
    rw [show s.phase = .polling from hen] at hserving
    exact Bool.noConfusion hserving
  | dataCb id sec => exact Bool.noConfusion hpoll
  | check on =>
    have hrep : s.phase.reported = true := hen
    cases hph : s.phase with
    | loop mask id =>
      rw [hph] at hrep
      have hid : id < 32 := of_decide_eq_true (Bool.and_eq_true_iff.mp hrep).1
      simp only [step, hph, dif_pos hid, Sys.at]
      split <;> simp only [Phase.left] <;> omega
    | _ =>
      rw [hph] at hrep
      exact Bool.noConfusion hrep
  | read drvData ret sec =>
    obtain ⟨mask, id, hph⟩ := hen
    simp only [step, hph]
    obtain hp | ⟨cb, data, sec', hp⟩ := readFilter_phase s mask id drvData ret sec
    · rw [hp]
      simp only [Phase.left]
      omega
    · rw [hp]
      simp only [Phase.left]
      omega
  | _ => exact Bool.noConfusion he

/-- Other steps do not take it back. -/
theorem left_other (hk : drv.Keeps) {e : Event σ} (hok : Ok drv s e) (he : e.ofThread = false) :
    (step drv s e).1.phase.left ≤ s.phase.left := by
  cases e with
  | dmxCall fhandle c =>
    obtain ⟨r, hr⟩ := Option.isSome_iff_exists.mp hok.1
    simp only [step, hr, Option.elim_some, le_refl]
  | allocate =>
    obtain ⟨r, hr⟩ := Option.isSome_iff_exists.mp hok.1
    simp only [step, hr, Option.elim_some, le_refl]
  | openDev threadOk =>
    obtain ⟨s', hs'⟩ := Option.isSome_iff_exists.mp hok.1.2
    simp only [step, hs', Option.getD_some]
    obtain ⟨-, ⟨-, -, hphase, -⟩ | ⟨-, ⟨hphase, -⟩ | ⟨hphase, -⟩⟩⟩ := amDmxOpen_spec hk hs'
    · rw [hphase]
    · rw [hphase]
      exact Nat.zero_le _
    · rw [hphase]
  | close =>
    apply le_of_eq
    change (amDmxClose s).phase.left = _
    unfold amDmxClose
    split
    · rfl
    · split <;> rfl
  | joined =>
    obtain ⟨s', hs'⟩ := Option.isSome_iff_exists.mp hok.1.2.2
    simp only [step, hs', Option.getD_some]
    rw [(amDmxCloseJoined_spec hk hs').2.1]
  | sync => exact le_refl _
  | _ => exact Bool.noConfusion he

theorem flag_clears (hk : drv.Keeps) {is : List (Event σ)} (hinv : Inv s)
    (hok : Each (Ok drv) (step drv) s is) (hn : s.phase.left ≤ is.countP Event.ofThread) :
    ∃ pre, pre <+: is ∧ (run (step drv) s pre).1.runCb = false := by
  induction is generalizing s with
  | nil =>
    refine ⟨[], List.nil_prefix, ?_⟩
    change s.runCb = false
    rw [hinv.flag]
    rw [List.countP_nil] at hn
    cases hph : s.phase with
    | loop mask id => simp [hph, Phase.left] at hn
    | lock mask id => simp [hph, Phase.left] at hn
    | call mask id cb data sec =>
      simp only [hph, Phase.left] at hn
      omega
    | running mask id cb data =>
      simp only [hph, Phase.left] at hn
      omega
    | finish => simp [hph, Phase.left] at hn
    | _ => rfl
  | cons e is ih =>
    obtain ⟨hoke, hok⟩ := hok
    cases hserving : s.phase.serving with
    | false => exact ⟨[], List.nil_prefix, hinv.flag.trans hserving⟩
    | true =>
      have hle : (step drv s e).1.phase.left ≤ is.countP Event.ofThread := by
        rw [List.countP_cons] at hn
        cases he : e.ofThread with
        | true =>
          have hlt := left_thread hoke he hserving
          rw [he, if_pos rfl] at hn
          omega
        | false =>
          have hle := left_other hk hoke he
          rw [he, if_neg Bool.false_ne_true] at hn
          omega
      obtain ⟨pre, hpre, hrun⟩ := ih (inv_step hk hinv hoke.1 hoke.2) hok hle
      exact ⟨e :: pre, (List.cons_prefix_cons).mpr ⟨rfl, hpre⟩, hrun⟩

/-- **A round of the thread ends**: in every run from a state that the device comes to, the flag that
`AM_DMX_Sync` waits for is clear at some moment before the thread has taken its 131st step, whatever
calls come in between. A waiter that is woken later may find the flag set again. -/
theorem runCb_clears (hk : drv.Keeps) (hs : Reachable drv s) {is : List (Event σ)}
    (hok : Each (Ok drv) (step drv) s is) (hn : 130 ≤ is.countP Event.ofThread) :
    ∃ pre, pre <+: is ∧ (run (step drv) s pre).1.runCb = false :=
  flag_clears hk (hs.inv hk) hok ((Phase.left_le _).trans hn)

/-- The thread passes over filters that the driver has not reported. -/
theorem pass_over (drv : DmxDriver σ) {n : Nat} {s : Sys σ} {mask : BitVec 32} {id : Nat}
    (hph : s.phase = .loop mask id) (hn : id + n ≤ 32)
    (hmask : ∀ i < 32, id ≤ i → mask.getLsbD i = false) :
    Each (Ok drv) (step drv) s (List.replicate n .go) ∧
      (run (step drv) s (List.replicate n .go)).1 = s.at (.loop mask (id + n)) := by
  induction n generalizing s id with
  | zero =>
    refine ⟨trivial, ?_⟩
    rw [List.replicate_zero, run_nil, Nat.add_zero, ← hph]
    rfl
  | succ n ih =>
    have hstep : (step drv s .go).1 = s.at (.loop mask (id + 1)) := by
      change (dataThreadGo s).1 = _
      rw [dataThreadGo, hph]
      simp only [if_pos (show id < 32 by omega)]
    have hok : Ok drv s .go := by
      refine ⟨?_, rfl⟩
      rw [Enabled, hph]
      simp [Phase.reported, hmask id (by omega) le_rfl]
    obtain ⟨heach, hrun⟩ := ih (s := s.at (.loop mask (id + 1))) rfl (by omega)
      fun i hi hid => hmask i hi (by omega)
    rw [List.replicate_succ, each_cons, run_cons, hstep, hrun]
    exact ⟨⟨hok, heach⟩, by rw [Nat.add_assoc, Nat.add_comm 1 n]; rfl⟩

/-- The thread is about to serve filter 0. -/
def serving : Sys Unit := (run (step bareDmxDriver) running [.poll () 0 1, .go]).1

theorem reachable_serving : Reachable bareDmxDriver serving :=
  reachable_running.after ⟨⟨rfl, rfl⟩, ⟨rfl, rfl⟩, trivial⟩

/-- The thread serves filter 0, while the device is opened once more and closed. -/
def serve : List (Event Unit) := [.check true, .openDev true, .read () 0 [0, 1], .go, .close, .go]

/-- Then it passes over the other 31 filters, and the driver reports filter 0 again. -/
def round : List (Event Unit) :=
  serve ++ (List.replicate 31 .go ++ [.go, .go, .go, .poll () 0 1, .go])

theorem each_round : Each (Ok bareDmxDriver) (step bareDmxDriver) serving round ∧
    (run (step bareDmxDriver) serving round).1 = serving := by
  have hphase : (serving.at (.loop 1 1)).phase = .loop 1 1 := rfl
  obtain ⟨heach, hrun⟩ := pass_over bareDmxDriver (n := 31) hphase (by omega) (by decide)
  have hserve : (run (step bareDmxDriver) serving serve).1 = serving.at (.loop 1 1) := rfl
  rw [round, each_append, hserve, each_append, hrun, run_append, hserve, run_append, hrun]
  refine ⟨⟨?_, heach, ?_⟩, rfl⟩
  · exact ⟨⟨rfl, rfl⟩, ⟨⟨rfl, rfl⟩, rfl⟩, ⟨⟨_, _, rfl⟩, rfl⟩, ⟨rfl, rfl⟩, ⟨rfl, rfl⟩, ⟨rfl, rfl⟩, trivial⟩
  · exact ⟨⟨rfl, rfl⟩, ⟨rfl, rfl⟩, ⟨rfl, rfl⟩, ⟨rfl, rfl⟩, ⟨rfl, rfl⟩, trivial⟩

def rounds (n : Nat) : List (Event Unit) := (List.replicate n round).flatten

theorem each_rounds (n : Nat) : Each (Ok bareDmxDriver) (step bareDmxDriver) serving (rounds n) := by
  induction n with
  | zero => trivial
  | succ n ih =>
    rw [rounds, List.replicate_succ, List.flatten_cons, each_append, each_round.2]
    exact ⟨each_round.1, ih⟩

theorem countP_rounds (n : Nat) : (rounds n).countP Event.ofThread = 40 * n := by
  induction n with
  | zero => rfl
  | succ n ih =>
    rw [rounds, List.replicate_succ, List.flatten_cons, List.countP_append]
    change 40 + (rounds n).countP Event.ofThread = _
    omega

theorem runCb_clears_served : serving.runCb = true ∧
    ∃ pre, pre <+: rounds 4 ∧ (run (step bareDmxDriver) serving pre).1.runCb = false :=
  ⟨rfl, runCb_clears bareDmxDriver_keeps reachable_serving (each_rounds 4)
    ((countP_rounds 4).ge.trans' (by decide))⟩

end

end VendorAmlogic.Demux.Api
