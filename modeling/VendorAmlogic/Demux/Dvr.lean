import Mathlib.Tactic
import VendorAmlogic.Lib.Bytes

/-!
# The DVR software demultiplexer: filters and channels

`am_dmx/am_dmx.c` over the driver `am_dmx/dvr/dvr.c`. Two tables of 32 filters
belong together: the filters of the device (`AM_DMX_Filter_t`, with the handle
the caller has) and those of the driver (`DVR_Filter`), which point to one of
32 PID channels (`DVR_Channel`). A pointer into a table is an index, `none` is
`NULL`. An operation that dereferences `NULL` returns `none`.

The device is open throughout, and the demux devices the driver opens for its
channels (`dmx_fds`) open without error; of these only the PID is kept.
-/

namespace VendorAmlogic.Demux

open VendorAmlogic.Lib

/-! ## Errors -/

def errInvalidId : Int := 2 ^ 24 + 2

def errNotAllocated : Int := 2 ^ 24 + 4

def errNoFreeFilter : Int := 2 ^ 24 + 8

/-! ## State -/

/-- `struct dmx_sct_filter_params`. -/
structure SctFilterParams where
  pid : BitVec 16
  filter : Fin 16 → Byte
  mask : Fin 16 → Byte
  mode : Fin 16 → Byte

/-- The section buffer of a channel. -/
abbrev SecBuf := { b : List Byte // b.length = 4096 }

/-- `memcpy` into the buffer; outside of it nothing is defined. -/
def SecBuf.put (b : SecBuf) (o : Nat) (d : List Byte) : Option SecBuf :=
  if h : o + d.length ≤ 4096 then
    some ⟨overwrite b.1 o d, by
      have := b.2
      rw [overwrite_of_le (by omega)]
      simp only [List.length_append, List.length_take, List.length_drop]
      omega⟩
  else none

/-- `DVR_Channel`. -/
structure DvrChannel where
  used : Int
  pid : Nat
  filters : Option (Fin 32)
  buf : SecBuf
  size : Nat
  cc : Int
  isSec : Bool

/-- `DVR_Filter`. -/
structure DvrFilter where
  used : Bool
  secFilter : Bool
  dmxFilter : Option (Fin 32)
  chan : Option (Fin 32)
  pid : Nat
  filter : Fin 16 → Byte
  maskandmode : Fin 16 → Byte
  maskandnotmode : Fin 16 → Byte

/-- `AM_DMX_Filter_t`. -/
structure DmxFilter where
  drvData : Option (Fin 32)
  used : Bool
  enable : Bool
  id : Nat

/-- `AM_DMX_Device_t` and the `DVR_Demux` behind it. `dmxFds` are the PIDs of the
demux devices open in `dmx_fds[0 .. dmx_cnt]`. -/
structure Dev where
  filters : Fin 32 → DmxFilter
  dvrFilters : Fin 32 → DvrFilter
  dvrChannels : Fin 32 → DvrChannel
  dmxFds : List Nat

/-- The device after `dvr_open`. -/
def dvrOpen : Dev where
  filters _ := ⟨none, false, false, 0⟩
  dvrFilters _ := ⟨false, false, none, none, 0, fun _ => 0, fun _ => 0, fun _ => 0⟩
  dvrChannels _ := ⟨0, 0, none, ⟨List.replicate 4096 0, List.length_replicate⟩, 0, 0, false⟩
  dmxFds := []

namespace Dev

def setFilter (d : Dev) (i : Fin 32) (f : DmxFilter) : Dev :=
  { d with filters := Function.update d.filters i f }

def setDvr (d : Dev) (i : Fin 32) (f : DvrFilter) : Dev :=
  { d with dvrFilters := Function.update d.dvrFilters i f }

def setChan (d : Dev) (i : Fin 32) (c : DvrChannel) : Dev :=
  { d with dvrChannels := Function.update d.dvrChannels i c }

section
variable (d : Dev) (i : Fin 32) (a : DmxFilter) (f : DvrFilter) (c : DvrChannel)

@[simp] theorem filters_setFilter : (d.setFilter i a).filters = Function.update d.filters i a := rfl
@[simp] theorem dvrFilters_setFilter : (d.setFilter i a).dvrFilters = d.dvrFilters := rfl
@[simp] theorem dvrChannels_setFilter : (d.setFilter i a).dvrChannels = d.dvrChannels := rfl
@[simp] theorem dmxFds_setFilter : (d.setFilter i a).dmxFds = d.dmxFds := rfl

@[simp] theorem filters_setDvr : (d.setDvr i f).filters = d.filters := rfl
@[simp] theorem dvrFilters_setDvr : (d.setDvr i f).dvrFilters = Function.update d.dvrFilters i f := rfl
@[simp] theorem dvrChannels_setDvr : (d.setDvr i f).dvrChannels = d.dvrChannels := rfl
@[simp] theorem dmxFds_setDvr : (d.setDvr i f).dmxFds = d.dmxFds := rfl

@[simp] theorem filters_setChan : (d.setChan i c).filters = d.filters := rfl
@[simp] theorem dvrFilters_setChan : (d.setChan i c).dvrFilters = d.dvrFilters := rfl
@[simp] theorem dvrChannels_setChan :
    (d.setChan i c).dvrChannels = Function.update d.dvrChannels i c := rfl
@[simp] theorem dmxFds_setChan : (d.setChan i c).dmxFds = d.dmxFds := rfl

end

end Dev

/-! ## The driver -/

/-- `dvr_alloc_filter`. What an earlier use of the slot left in `chan` stays. -/
def dvrAllocFilter (d : Dev) (fid : Fin 32) : Dev × Int :=
  match Fin.find? fun i => ! (d.dvrFilters i).used with
  | none => (d, errNoFreeFilter)
  | some i =>
    let d := d.setDvr i { d.dvrFilters i with
      used := true, dmxFilter := some fid, secFilter := true, pid := 0x1FFF }
    (d.setFilter fid { d.filters fid with drvData := some i }, 0)

/-- `dvr_find_channel`. -/
def dvrFindChannel (d : Dev) (pid : Nat) (isSec : Bool) : Option (Dev × Fin 32) :=
  match Fin.find? fun i => (d.dvrChannels i).used ≠ 0 ∧ (d.dvrChannels i).pid = pid with
  | some i =>
    let ch := d.dvrChannels i
    if ch.isSec ≠ isSec then none
    else some (d.setChan i { ch with used := ch.used + 1 }, i)
  | none =>
    match Fin.find? fun i => (d.dvrChannels i).used = 0 with
    | some i =>
      let ch := d.dvrChannels i
      some (d.setChan i { ch with used := 1, isSec := isSec, pid := pid, cc := -1, filters := none }, i)
    | none => none

/-- The rebuild loop of `dvr_enable_filter`: one demux device per used channel. -/
def dvrReset (d : Dev) : Dev :=
  let chans := (List.finRange 32).filter fun i => (d.dvrChannels i).used ≠ 0
  { d with dmxFds := chans.map fun i => (d.dvrChannels i).pid }

/-- `dvr_enable_filter`. -/
def dvrEnableFilter (d : Dev) (fid : Fin 32) (enable : Bool) : Option (Dev × Int) :=
  if (d.filters fid).enable = enable then some (d, 0)
  else do
    let g ← (d.filters fid).drvData
    if enable then
      match dvrFindChannel d (d.dvrFilters g).pid (d.dvrFilters g).secFilter with
      | none => some (d, errNoFreeFilter)
      | some (d, ch) =>
        let d := d.setDvr g { d.dvrFilters g with chan := some ch }
        some (if (d.dvrChannels ch).used = 1 then dvrReset d else d, 0)
    else
      let ch ← (d.dvrFilters g).chan
      let d := d.setChan ch { d.dvrChannels ch with used := (d.dvrChannels ch).used - 1 }
      some (if (d.dvrChannels ch).used = 0 then dvrReset d else d, 0)

/-- `dvr_free_filter`. -/
def dvrFreeFilter (d : Dev) (fid : Fin 32) : Option (Dev × Int) := do
  let (d, _) ← dvrEnableFilter d fid false
  let g ← (d.filters fid).drvData
  some (d.setDvr g { d.dvrFilters g with used := false }, 0)

/-- The frame of `dvr_set_sec_filter` and `dvr_set_pes_filter`: an enabled filter
is taken off its channel while it is programmed. -/
def dvrProgram (d : Dev) (fid : Fin 32) (prog : DvrFilter → DvrFilter) : Option (Dev × Int) := do
  let enable := (d.filters fid).enable
  let d ← if enable then (·.1) <$> dvrEnableFilter d fid false else some d
  let g ← (d.filters fid).drvData
  let d := d.setDvr g (prog (d.dvrFilters g))
  let d ← if enable then (·.1) <$> dvrEnableFilter d fid true else some d
  some (d, 0)

/-- What `dvr_set_sec_filter` writes: the entries 1 and 2 are ignored. -/
def secProgram (p : SctFilterParams) (f : DvrFilter) : DvrFilter :=
  { f with
    secFilter := true
    pid := p.pid.toNat
    filter := fun i => if i = 1 ∨ i = 2 then 0 else p.filter i
    maskandmode := fun i => if i = 1 ∨ i = 2 then 0 else p.mask i &&& ~~~ p.mode i
    maskandnotmode := fun i => if i = 1 ∨ i = 2 then 0 else p.mask i &&& ~~~ (~~~ p.mode i) }

def dvrSetSecFilter (d : Dev) (fid : Fin 32) (p : SctFilterParams) : Option (Dev × Int) :=
  dvrProgram d fid (secProgram p)

def dvrSetPesFilter (d : Dev) (fid : Fin 32) (pid : BitVec 16) : Option (Dev × Int) :=
  dvrProgram d fid fun f => { f with secFilter := false, pid := pid.toNat }

/-! ## The device -/

/-- `dmx_get_used_filter`: the filter of a handle, or the error. -/
def dmxGetUsedFilter (d : Dev) (h : Int) : Except Int (Fin 32) :=
  if hr : 0 ≤ h ∧ h < 32 then
    let fid : Fin 32 := ⟨h.toNat, by omega⟩
    if (d.filters fid).used then .ok fid else .error errNotAllocated
  else .error errInvalidId

/-- `dmx_stop_filter`. -/
def dmxStopFilter (d : Dev) (fid : Fin 32) : Option (Dev × Int) :=
  if ! (d.filters fid).used ∨ ! (d.filters fid).enable then some (d, 0)
  else do
    let (d, ret) ← dvrEnableFilter d fid false
    if ret ≥ 0 then some (d.setFilter fid { d.filters fid with enable := false }, ret)
    else some (d, ret)

/-- `dmx_free_filter`. -/
def dmxFreeFilter (d : Dev) (fid : Fin 32) : Option (Dev × Int) :=
  if ! (d.filters fid).used then some (d, 0)
  else do
    let (d, ret) ← dmxStopFilter d fid
    let (d, ret) ← if ret = 0 then dvrFreeFilter d fid else some (d, ret)
    if ret = 0 then some (d.setFilter fid { d.filters fid with used := false }, ret)
    else some (d, ret)

/-- `AM_DMX_AllocateFilter`; the handle is the index. -/
def amDmxAllocateFilter (d : Dev) : Dev × Int × Option (Fin 32) :=
  match Fin.find? fun i => ! (d.filters i).used with
  | none => (d, errNoFreeFilter, none)
  | some fid =>
    let (d, ret) := dvrAllocFilter (d.setFilter fid { d.filters fid with id := fid }) fid
    if ret = 0 then (d.setFilter fid { d.filters fid with used := true }, ret, some fid)
    else (d, ret, none)

/-- The frame of `AM_DMX_SetSecFilter` and `AM_DMX_SetPesFilter`. -/
def dmxSet (d : Dev) (h : Int) (drv : Dev → Fin 32 → Option (Dev × Int)) : Option (Dev × Int) :=
  match dmxGetUsedFilter d h with
  | .error e => some (d, e)
  | .ok fid => do
    let (d, ret) ← dmxStopFilter d fid
    if ret = 0 then drv d fid else some (d, ret)

def amDmxSetSecFilter (d : Dev) (h : Int) (p : SctFilterParams) : Option (Dev × Int) :=
  dmxSet d h fun d fid => dvrSetSecFilter d fid p

def amDmxSetPesFilter (d : Dev) (h : Int) (pid : BitVec 16) : Option (Dev × Int) :=
  dmxSet d h fun d fid => dvrSetPesFilter d fid pid

def amDmxFreeFilter (d : Dev) (h : Int) : Option (Dev × Int) :=
  match dmxGetUsedFilter d h with
  | .error e => some (d, e)
  | .ok fid => dmxFreeFilter d fid

/-- `AM_DMX_StartFilter`. It looks at `filter->enable` also when the handle is not
valid and `filter` is still `NULL`. -/
def amDmxStartFilter (d : Dev) (h : Int) : Option (Dev × Int) :=
  match dmxGetUsedFilter d h with
  | .error _ => none
  | .ok fid =>
    if (d.filters fid).enable then some (d, 0)
    else do
      let (d, ret) ← dvrEnableFilter d fid true
      if ret = 0 then some (d.setFilter fid { d.filters fid with enable := true }, ret)
      else some (d, ret)

def amDmxStopFilter (d : Dev) (h : Int) : Option (Dev × Int) :=
  match dmxGetUsedFilter d h with
  | .error e => some (d, e)
  | .ok fid => if (d.filters fid).enable then dmxStopFilter d fid else some (d, 0)

/-- The calls of the filter interface. -/
inductive Op where
  | allocateFilter
  | setSecFilter (h : Int) (p : SctFilterParams)
  | setPesFilter (h : Int) (pid : BitVec 16)
  | startFilter (h : Int)
  | stopFilter (h : Int)
  | freeFilter (h : Int)

def call (d : Dev) : Op → Option (Dev × Int)
  | .allocateFilter => some ((amDmxAllocateFilter d).1, (amDmxAllocateFilter d).2.1)
  | .setSecFilter h p => amDmxSetSecFilter d h p
  | .setPesFilter h pid => amDmxSetPesFilter d h pid
  | .startFilter h => amDmxStartFilter d h
  | .stopFilter h => amDmxStopFilter d h
  | .freeFilter h => amDmxFreeFilter d h

end VendorAmlogic.Demux
