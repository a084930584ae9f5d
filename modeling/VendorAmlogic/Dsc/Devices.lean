import VendorAmlogic.Lib.Run

/-!
# Descrambler devices

`AM_DSC_Open`, `AM_DSC_AllocateChannel`, `AM_DSC_SetChannelPID`, `AM_DSC_SetKey`,
`AM_DSC_FreeChannel` and `AM_DSC_Close` of `am_dsc/am_dsc.c` over the kernel
driver `aml_dsc_drv` and the secure library, whose functions, those that it has,
all succeed. The table of the devices is allocated. What is called is put on
record with the work mode at that moment; a call through a pointer to no
function has no result.
-/

namespace VendorAmlogic.Dsc

open VendorAmlogic.Lib

def AM_SUCCESS : Int := 0
def AM_FAILURE : Int := -1
def AM_FALSE : Int := 0
def AM_MOD_DSC : Int := 11
def AM_DSC_ERROR_BASE : Int := AM_MOD_DSC * 2 ^ 24
def AM_DSC_ERR_INVALID_DEV_NO : Int := AM_DSC_ERROR_BASE + 1
def AM_DSC_ERR_BUSY : Int := AM_DSC_ERROR_BASE + 2
def AM_DSC_ERR_NOT_ALLOCATED : Int := AM_DSC_ERROR_BASE + 3
def AM_DSC_ERR_NO_FREE_CHAN : Int := AM_DSC_ERROR_BASE + 6
def AM_DSC_ERR_INVALID_ID : Int := AM_DSC_ERROR_BASE + 9

def DSC_CHANNEL_COUNT : Nat := 8

def AM_DSC_KEY_FROM_KL : BitVec 32 := 0x80
def DSC_KEY_ODD : Nat := 0
def DSC_KEY_EVEN : Nat := 1

/-! ## Model -/

/-- `AM_DSC_WorkMode_e`, and the -1 of a closed device. -/
inductive WorkMode where
  | normal
  | sec
  | max
  | unset
  deriving DecidableEq, Repr

/-- The functions that `get_functions` looks up. -/
inductive SecFunction where
  | secOpen
  | setChannelPid
  | allocChannel
  | freeChannel
  | setKey
  | keyladderRun
  | keyladderCR
  | secClose
  | setOutput
  deriving DecidableEq, Repr

/-- The secure library: none on the system, or one with some of the functions. -/
inductive Library where
  | missing
  | loads (has : SecFunction → Bool)

/-- What an `AM_DSC_SEC` pointer points to; `closed` is where the library was. -/
inductive Pointer where
  | null
  | loaded
  | closed
  deriving DecidableEq, Repr

structure Globals where
  mode : WorkMode
  lib_handle : Bool
  funcs : SecFunction → Pointer

structure Channel where
  id : Int
  pid : BitVec 16
  stream_path : BitVec 8
  used : Bool
  deriving DecidableEq, Repr

structure Device where
  dev_no : Int
  channels : Fin DSC_CHANNEL_COUNT → Channel
  openned : Bool

def Device.setChan (dev : Device) (i : Fin DSC_CHANNEL_COUNT) (chan : Channel) : Device :=
  { dev with channels := Function.update dev.channels i chan }

/-- How a channel is known to the driver, and to the secure library. -/
inductive Handle where
  | chan (dev_no : Int) (i : Fin DSC_CHANNEL_COUNT)
  | path (dev_no : Int) (stream_path : BitVec 8)
  deriving DecidableEq, Repr

/-- The calls of the driver and of the secure library. -/
inductive Op where
  | drvOpen (dev_no : Int)
  | drvClose (dev_no : Int)
  | secOpen (dev_no : Int)
  | secClose (dev_no : Int)
  | alloc (h : Handle)
  | free (h : Handle)
  | setPid (h : Handle) (pid : BitVec 16)
  | setKey (h : Handle) (type : BitVec 32) (key : List (BitVec 8))
  | secSetKey (h : Handle) (pid : BitVec 16) (parity : Nat) (key : List (BitVec 8)) (key_len : Nat)
      (type : BitVec 32)
  | secKeyladderRun (h : Handle) (pid : BitVec 16) (parity : Nat) (type : BitVec 32)
  deriving DecidableEq, Repr

structure Event where
  mode : WorkMode
  op : Op
  deriving DecidableEq, Repr

/-- `ret` is `none` after a call to no function; `chan_id` is what `AM_DSC_AllocateChannel` gives
back. -/
structure Outcome where
  ret : Option Int
  chan_id : Option Int
  events : List Event

def Outcome.of (ret : Int) : Outcome := ⟨some ret, none, []⟩

/-- A driver call. -/
def Globals.drv (g : Globals) (op : Op) : Outcome := ⟨some AM_SUCCESS, none, [⟨g.mode, op⟩]⟩

/-- A call of the secure library. -/
def Globals.secure (g : Globals) (f : SecFunction) (op : Op) : Outcome :=
  ⟨if g.funcs f = .loaded then some AM_SUCCESS else none, none, [⟨g.mode, op⟩]⟩

/-- The functions whose pointers `get_functions` looks at: all but `AM_DSC_SEC_Close`. -/
def checkedFunctions : List SecFunction :=
  [.secOpen, .setChannelPid, .allocChannel, .freeChannel, .setKey, .keyladderRun, .keyladderCR,
    .setOutput]

def getFunctions (has : SecFunction → Bool) : (SecFunction → Pointer) × Int :=
  let funcs := fun f => if has f then .loaded else .null
  (funcs, if ∃ f ∈ checkedFunctions, funcs f = .null then AM_FALSE else AM_SUCCESS)

def getWorkMode (lib : Library) (g : Globals) : Globals :=
  if g.mode ≠ .max then g
  else
    match lib with
    | .missing => { g with mode := .normal, lib_handle := false }
    | .loads has =>
      let r := getFunctions has
      ⟨if r.2 ≠ AM_SUCCESS then .normal else .sec, true, r.1⟩

def dscGetUsedChan (dev : Device) (chan_id : Int) : Except Int (Fin DSC_CHANNEL_COUNT) :=
  if h : 0 ≤ chan_id ∧ chan_id < DSC_CHANNEL_COUNT then
    let i : Fin DSC_CHANNEL_COUNT := ⟨chan_id.toNat, by omega⟩
    if (dev.channels i).used then .ok i else .error AM_DSC_ERR_NOT_ALLOCATED
  else .error AM_DSC_ERR_INVALID_ID

def dscFreeChan (g : Globals) (dev_no : Int) (i : Fin DSC_CHANNEL_COUNT) (chan : Channel) :
    Channel × List Event :=
  if ¬ chan.used then (chan, [])
  else ({ chan with used := false }, [⟨g.mode, .free (.chan dev_no i)⟩])

section Functions

variable (g : Globals) (dev_no : Int) (dev : Device)

def amDscOpen (lib : Library) : Globals × Device × Outcome :=
  let g := getWorkMode lib g
  if dev.openned then (g, dev, .of AM_DSC_ERR_BUSY)
  else
    let dev := { dev with dev_no := dev_no }
    let out :=
      if g.mode = .normal then g.drv (.drvOpen dev_no) else g.secure .secOpen (.secOpen dev_no)
    (g, { dev with openned := out.ret = some AM_SUCCESS }, out)

/-- `path` is what the secure library gives. -/
def amDscAllocateChannel (path : BitVec 8) : Globals × Device × Outcome :=
  match (List.finRange DSC_CHANNEL_COUNT).find? fun i => ¬ (dev.channels i).used with
  | none => (g, dev, { Outcome.of AM_DSC_ERR_NO_FREE_CHAN with chan_id := some DSC_CHANNEL_COUNT })
  | some i =>
    let chan := { dev.channels i with id := i.val, pid := 0xFFFF, used := true }
    match g.mode with
    | .normal =>
      (g, dev.setChan i chan, { g.drv (.alloc (.chan dev_no i)) with chan_id := some i.val })
    | .sec =>
      (g, dev.setChan i { chan with stream_path := path },
        { g.secure .allocChannel (.alloc (.path dev_no path)) with chan_id := some i.val })
    | _ =>
      (g, dev.setChan i { chan with used := false },
        { Outcome.of AM_FAILURE with chan_id := some i.val })

def amDscSetChannelPID (chan_id : Int) (pid : BitVec 16) : Globals × Device × Outcome :=
  match dscGetUsedChan dev chan_id with
  | .error e => (g, dev, .of e)
  | .ok i =>
    let out := if g.mode = .normal then g.drv (.setPid (.chan dev_no i) pid) else .of AM_SUCCESS
    (g, dev.setChan i { dev.channels i with pid := pid }, out)

def secParity (type : BitVec 32) : Nat :=
  match (type &&& ~~~ AM_DSC_KEY_FROM_KL).toNat with
  | 1 | 3 | 5 => DSC_KEY_ODD
  | 0 | 2 | 4 => DSC_KEY_EVEN
  | _ => 0

def amDscSetKey (chan_id : Int) (type : BitVec 32) (key : List (BitVec 8)) :
    Globals × Device × Outcome :=
  match dscGetUsedChan dev chan_id with
  | .error e => (g, dev, .of e)
  | .ok i =>
    match g.mode with
    | .normal => (g, dev, g.drv (.setKey (.chan dev_no i) type key))
    | .sec =>
      let chan := dev.channels i
      let h := Handle.path dev_no chan.stream_path
      if type &&& AM_DSC_KEY_FROM_KL ≠ 0 then
        (g, dev, g.secure .keyladderRun (.secKeyladderRun h chan.pid (secParity type) type))
      else (g, dev, g.secure .setKey (.secSetKey h chan.pid (secParity type) key 16 type))
    | _ => (g, dev, .of AM_FAILURE)

def amDscFreeChannel (chan_id : Int) : Globals × Device × Outcome :=
  match dscGetUsedChan dev chan_id with
  | .error e => (g, dev, .of e)
  | .ok i =>
    let chan := dev.channels i
    let out : Outcome :=
      match g.mode with
      | .normal => ⟨some AM_SUCCESS, none, (dscFreeChan g dev_no i chan).2⟩
      | .sec => g.secure .freeChannel (.free (.path dev_no chan.stream_path))
      | _ => .of AM_FAILURE
    (g, dev.setChan i { chan with used := false }, out)

/-- `dlclose`. -/
def Pointer.unload : Pointer → Pointer
  | .loaded => .closed
  | p => p

/-- In secure mode the result is that of `AM_DSC_SEC_Close`, once `AM_DSC_SEC_FreeChannel` was called
for each channel. -/
def amDscClose : Globals × Device × Outcome :=
  match g.mode with
  | .normal =>
    let freed := fun i => dscFreeChan g dev_no i (dev.channels i)
    let events := (List.finRange DSC_CHANNEL_COUNT).flatMap fun i => (freed i).2
    ({ g with mode := .unset }, { dev with channels := fun i => (freed i).1, openned := false },
      ⟨some AM_SUCCESS, none, events ++ [⟨g.mode, .drvClose dev_no⟩]⟩)
  | .sec =>
    let events := (List.finRange DSC_CHANNEL_COUNT).map fun i =>
      (⟨g.mode, .free (.path dev_no (dev.channels i).stream_path)⟩ : Event)
    let out := g.secure .secClose (.secClose dev_no)
    (⟨.unset, false, if g.lib_handle then fun f => (g.funcs f).unload else g.funcs⟩,
      { dev with openned := false },
      ⟨if g.funcs .freeChannel = .loaded then out.ret else none, none, events ++ out.events⟩)
  | _ => ({ g with mode := .unset }, { dev with openned := false }, .of AM_FAILURE)

end Functions

/-! ## Runs -/

structure State where
  globals : Globals
  devices : Int → Device

/-- Of `num` devices, this one. -/
def State.onDev (num : Nat) (s : State) (dev_no : Int)
    (f : Globals → Device → Globals × Device × Outcome) : State × Outcome :=
  if dev_no < 0 ∨ dev_no ≥ num then (s, .of AM_DSC_ERR_INVALID_DEV_NO)
  else
    let r := f s.globals (s.devices dev_no)
    (⟨r.1, Function.update s.devices dev_no r.2.1⟩, r.2.2)

inductive Call where
  | opens (dev_no : Int)
  | allocateChannel (dev_no : Int) (path : BitVec 8)
  | setChannelPID (dev_no chan_id : Int) (pid : BitVec 16)
  | setKey (dev_no chan_id : Int) (type : BitVec 32) (key : List (BitVec 8))
  | freeChannel (dev_no chan_id : Int)
  | close (dev_no : Int)

def Call.dev_no : Call → Int
  | .opens dev_no => dev_no
  | .allocateChannel dev_no _ => dev_no
  | .setChannelPID dev_no _ _ => dev_no
  | .setKey dev_no _ _ _ => dev_no
  | .freeChannel dev_no _ => dev_no
  | .close dev_no => dev_no

/-- All but `AM_DSC_Open` are for an open device. -/
def openned (f : Globals → Device → Globals × Device × Outcome) (g : Globals) (dev : Device) :
    Globals × Device × Outcome :=
  if ¬ dev.openned then (g, dev, .of AM_DSC_ERR_INVALID_DEV_NO) else f g dev

def act (lib : Library) : Call → Globals → Device → Globals × Device × Outcome
  | .opens dev_no => fun g dev => amDscOpen g dev_no dev lib
  | .allocateChannel dev_no path => openned fun g dev => amDscAllocateChannel g dev_no dev path
  | .setChannelPID dev_no chan_id pid =>
    openned fun g dev => amDscSetChannelPID g dev_no dev chan_id pid
  | .setKey dev_no chan_id type key =>
    openned fun g dev => amDscSetKey g dev_no dev chan_id type key
  | .freeChannel dev_no chan_id => openned fun g dev => amDscFreeChannel g dev_no dev chan_id
  | .close dev_no => openned fun g dev => amDscClose g dev_no dev

/-- `AM_DSC_SetKey` takes the keys of CI Plus for device 0 only. -/
def Call.Refused : Call → Prop
  | .setKey dev_no _ type _ => dev_no > 0 ∧ (type &&& ~~~ AM_DSC_KEY_FROM_KL).toNat > 1
  | _ => False

instance : ∀ c : Call, Decidable c.Refused
  | .opens _ => inferInstanceAs (Decidable False)
  | .allocateChannel _ _ => inferInstanceAs (Decidable False)
  | .setChannelPID _ _ _ => inferInstanceAs (Decidable False)
  | .setKey dev_no _ type _ =>
    inferInstanceAs (Decidable (dev_no > 0 ∧ (type &&& ~~~ AM_DSC_KEY_FROM_KL).toNat > 1))
  | .freeChannel _ _ => inferInstanceAs (Decidable False)
  | .close _ => inferInstanceAs (Decidable False)

def step (lib : Library) (num : Nat) (s : State) (c : Call) : State × Outcome :=
  if c.Refused then (s, .of AM_FAILURE) else s.onDev num c.dev_no (act lib c)

/-- The static variables at the start. -/
def initial : Globals := ⟨.max, false, fun _ => .null⟩

def start : State :=
  ⟨initial, fun _ => ⟨0, fun _ => ⟨0, 0, 0, false⟩, false⟩⟩

/-- A state with how it came about. -/
structure History where
  state : State
  calls : List Call
  trace : List Event

def hstep (lib : Library) (num : Nat) (h : History) (c : Call) : History × Outcome :=
  let r := step lib num h.state c
  (⟨r.1, h.calls ++ [c], h.trace ++ r.2.events⟩, r.2)

def begin : History := ⟨start, [], []⟩

/-! ## What is asked of a step -/

def Handle.dev_no : Handle → Int
  | .chan dev_no _ => dev_no
  | .path dev_no _ => dev_no

def allocs (x : Handle) (events : List Event) : Nat := events.countP fun e => e.op = .alloc x

def frees (x : Handle) (events : List Event) : Nat := events.countP fun e => e.op = .free x

/-- There is a library, with all its functions or not. -/
def Library.opens : Library → Bool
  | .missing => false
  | .loads _ => true

/-- How a channel was allocated. -/
def handle (lib : Library) (dev_no : Int) (i : Fin DSC_CHANNEL_COUNT) (chan : Channel) : Handle :=
  if lib.opens then .path dev_no chan.stream_path else .chan dev_no i

def Channel.counts (lib : Library) (dev_no : Int) (x : Handle) (i : Fin DSC_CHANNEL_COUNT)
    (chan : Channel) : Nat :=
  if chan.used = true ∧ handle lib dev_no i chan = x then 1 else 0

/-- The channels in use on a device under a handle. -/
def Device.inUse (lib : Library) (dev_no : Int) (x : Handle) (dev : Device) : Nat :=
  if dev.openned then ∑ i, (dev.channels i).counts lib dev_no x i else 0

def State.inUse (lib : Library) (x : Handle) (s : State) : Nat :=
  (s.devices x.dev_no).inUse lib x.dev_no x

def onDevice (d : Int) (calls : List Call) : List Call := calls.filter fun c => c.dev_no = d

/-- The state that the calls lead to. -/
def after (lib : Library) (num : Nat) (calls : List Call) : State :=
  calls.foldl (fun s c => (step lib num s c).1) start

/-- The call returns; an open device does as it would had there been no calls on the others; a device
that is not open is opened, with all its channels free; what is called is called in one of the two
work modes; what was allocated is in use or has been released once. -/
structure Right (lib : Library) (num : Nat) (h : History) (c : Call) : Prop where
  returns : (hstep lib num h c).2.ret ≠ none
  alone : (h.state.devices c.dev_no).openned = true →
    (hstep lib num h c).2.ret =
      (step lib num (after lib num (onDevice c.dev_no h.calls)) c).2.ret
  reopens : ∀ d, c = .opens d → 0 ≤ d ∧ d < num → (h.state.devices d).openned = false →
    (hstep lib num h c).2.ret = some AM_SUCCESS ∧
      ((hstep lib num h c).1.state.devices d).openned = true ∧
        ∀ i, (((hstep lib num h c).1.state.devices d).channels i).used = false
  modes : ∀ e ∈ (hstep lib num h c).2.events, e.mode = .normal ∨ e.mode = .sec
  released : ∀ x, allocs x (hstep lib num h c).1.trace =
    frees x (hstep lib num h c).1.trace + (hstep lib num h c).1.state.inUse lib x

/-- The call gets to where it needs the work mode. -/
def Dispatches (dev : Device) : Call → Prop
  | .opens _ => dev.openned = false
  | .allocateChannel _ _ => dev.openned = true ∧ ∃ i, (dev.channels i).used = false
  | .setChannelPID _ _ _ => False
  | .setKey _ chan_id _ _ => dev.openned = true ∧ (dscGetUsedChan dev chan_id).isOk = true
  | .freeChannel _ chan_id => dev.openned = true ∧ (dscGetUsedChan dev chan_id).isOk = true
  | .close _ => dev.openned = true

instance (dev : Device) : ∀ c, Decidable (Dispatches dev c)
  | .opens _ => inferInstanceAs (Decidable (dev.openned = false))
  | .allocateChannel _ _ =>
    inferInstanceAs (Decidable (dev.openned = true ∧ ∃ i, (dev.channels i).used = false))
  | .setChannelPID _ _ _ => inferInstanceAs (Decidable False)
  | .setKey _ chan_id _ _ => inferInstanceAs
      (Decidable (dev.openned = true ∧ (dscGetUsedChan dev chan_id).isOk = true))
  | .freeChannel _ chan_id => inferInstanceAs
      (Decidable (dev.openned = true ∧ (dscGetUsedChan dev chan_id).isOk = true))
  | .close _ => inferInstanceAs (Decidable (dev.openned = true))

def Reaches (num : Nat) (s : State) (c : Call) : Prop :=
  ¬ c.Refused ∧ ¬ (c.dev_no < 0 ∨ c.dev_no ≥ num) ∧ Dispatches (s.devices c.dev_no) c

instance (num : Nat) (s : State) (c : Call) : Decidable (Reaches num s c) :=
  inferInstanceAs (Decidable (_ ∧ _ ∧ _))

def Call.isClose : Call → Bool
  | .close _ => true
  | _ => false

/-- The functions of the library that the call comes to in secure mode. -/
def Call.functions : Call → List SecFunction
  | .opens _ => [.secOpen]
  | .allocateChannel _ _ => [.allocChannel]
  | .setChannelPID _ _ _ => []
  | .setKey _ _ type _ => if type &&& AM_DSC_KEY_FROM_KL ≠ 0 then [.keyladderRun] else [.setKey]
  | .freeChannel _ _ => [.freeChannel]
  | .close _ => [.freeChannel, .secClose]

/-- There is no library, or it has what the call comes to. -/
def Library.Serves : Library → Call → Prop
  | .missing, _ => True
  | .loads has, c => ∀ f ∈ c.functions, has f = true

instance : ∀ (lib : Library) (c : Call), Decidable (lib.Serves c)
  | .missing, _ => inferInstanceAs (Decidable True)
  | .loads has, c => inferInstanceAs (Decidable (∀ f ∈ c.functions, has f = true))

/-- No device has been closed before a call that needs the work mode, the library has what such a
call comes to, and a device that is closed in secure mode has all its channels in use. -/
structure Harmless (lib : Library) (num : Nat) (h : History) (c : Call) : Prop where
  mode : Reaches num h.state c → h.state.globals.mode ≠ .unset
  serves : Reaches num h.state c → lib.Serves c
  full : c.isClose = true → Reaches num h.state c → h.state.globals.mode = .sec →
    ∀ i, ((h.state.devices c.dev_no).channels i).used = true

instance (lib : Library) (num : Nat) (h : History) (c : Call) : Decidable (Harmless lib num h c) :=
  decidable_of_iff ((Reaches num h.state c → h.state.globals.mode ≠ .unset) ∧
    (Reaches num h.state c → lib.Serves c) ∧
    (c.isClose = true → Reaches num h.state c → h.state.globals.mode = .sec →
      ∀ i, ((h.state.devices c.dev_no).channels i).used = true))
    ⟨fun h => ⟨h.1, h.2.1, h.2.2⟩, fun h => ⟨h.mode, h.serves, h.full⟩⟩

end VendorAmlogic.Dsc
