import VendorAmlogic.Lib.Run

/-!
# OSD devices

`AM_OSD_Init`, `AM_OSD_Quit`, `AM_OSD_Open` and `AM_OSD_Close` of
`am_osd/am_osd.c`, with the resources that all devices share. The outcomes of
`malloc` and of the driver's `open` are inputs. Surfaces are known by number.
-/

namespace VendorAmlogic.Osd

open VendorAmlogic.Lib

def AM_SUCCESS : Int := 0
def AM_MOD_OSD : Int := 4
def AM_OSD_ERROR_BASE : Int := AM_MOD_OSD * 2 ^ 24
def AM_OSD_ERR_NO_MEM : Int := AM_OSD_ERROR_BASE + 1
def AM_OSD_ERR_BUSY : Int := AM_OSD_ERROR_BASE + 2
def AM_OSD_ERR_INVALID_DEV_NO : Int := AM_OSD_ERROR_BASE + 3

def OSD_DEV_COUNT : Nat := 2

/-! ## Model -/

/-- `AM_OSD_OpenPara_t`. -/
structure OpenPara where
  format : Nat
  width : Int
  height : Int
  output_width : Int
  output_height : Int
  enable_double_buffer : Bool
  vout_dev_no : Int
  deriving DecidableEq, Repr

/-- `AM_OSD_Device_t`, without what only the driver uses. -/
structure Device where
  vout_dev_no : Int
  dev_no : Int
  para : OpenPara
  enable_double_buffer : Bool
  enable : Bool
  openned : Bool
  surface : Option Nat
  display : Option Nat
  deriving DecidableEq, Repr

/-- What `palette.colors` points to. -/
inductive Colors where
  | null
  | live
  | freed
  deriving DecidableEq, Repr

/-- The static variables of the module; `ops` says that the surface operations are initialized. -/
structure Globals where
  open_counter : Int
  colors : Colors
  ops : Bool
  devices : Fin OSD_DEV_COUNT → Device

/-- The driver's `open`: its result, and what it leaves in `dev->surface` and `dev->display`. -/
structure Driven where
  ret : Int
  surface : Option Nat
  display : Option Nat

/-- A second `free` of the same colors has no defined effect; nothing is said here of what follows
it but that they are no longer there. -/
def osdDeinit (s : Globals) : Globals :=
  let s := { s with open_counter := s.open_counter - 1 }
  if s.open_counter ≠ 0 then s
  else { s with ops := false, colors := if s.colors = .null then .null else .freed }

/-- `mem`: `malloc` gives the palette. -/
def osdInit (s : Globals) (mem : Bool) : Int × Globals :=
  let s := { s with open_counter := s.open_counter + 1 }
  if s.open_counter ≠ 1 then (AM_SUCCESS, s)
  else if ¬ mem then (AM_OSD_ERR_NO_MEM, osdDeinit s)
  else (AM_SUCCESS, { s with colors := .live, ops := true })

def osdGetDev (dev_no : Int) : Option (Fin OSD_DEV_COUNT) :=
  if h : 0 ≤ dev_no ∧ dev_no < OSD_DEV_COUNT then some ⟨dev_no.toNat, by omega⟩ else none

def Globals.setDev (s : Globals) (i : Fin OSD_DEV_COUNT) (d : Device) : Globals :=
  { s with devices := Function.update s.devices i d }

def amOsdInit (s : Globals) (mem : Bool) : Globals × Int := ((osdInit s mem).2, AM_SUCCESS)

def amOsdQuit (s : Globals) : Globals × Int := (osdDeinit s, AM_SUCCESS)

/-- The fields that `AM_OSD_Open` sets before it knows whether it goes on. -/
def Device.reset (d : Device) (dev_no : Int) (para : OpenPara) : Device :=
  { d with
    dev_no := dev_no
    vout_dev_no := para.vout_dev_no
    surface := none
    display := none
    enable := true }

def amOsdOpen (s : Globals) (dev_no : Int) (para : OpenPara) (mem : Bool) (drv : Driven) :
    Globals × Int :=
  match osdGetDev dev_no with
  | none => (s, AM_OSD_ERR_INVALID_DEV_NO)
  | some i =>
    let s := (osdInit s mem).2
    let busy := (s.devices i).openned
    let s := if busy then osdDeinit s else s
    let d := (s.devices i).reset dev_no para
    if busy then (s.setDev i d, AM_OSD_ERR_BUSY)
    else
      let d := { d with surface := drv.surface, display := drv.display }
      if drv.ret ≠ AM_SUCCESS then ((osdDeinit s).setDev i d, drv.ret)
      else
        let d := { d with
          openned := true
          para := para
          enable_double_buffer := para.enable_double_buffer }
        (s.setDev i d, AM_SUCCESS)

def amOsdClose (s : Globals) (dev_no : Int) : Globals × Int :=
  match osdGetDev dev_no with
  | none => (s, AM_OSD_ERR_INVALID_DEV_NO)
  | some i =>
    if ¬ (s.devices i).openned then (s, AM_OSD_ERR_INVALID_DEV_NO)
    else (osdDeinit (s.setDev i { s.devices i with openned := false }), AM_SUCCESS)

/-! ## Runs -/

inductive Call where
  | init (mem : Bool)
  | quit
  | opens (dev_no : Int) (para : OpenPara) (mem : Bool) (drv : Driven)
  | close (dev_no : Int)

def call (s : Globals) : Call → Globals × Int
  | .init mem => amOsdInit s mem
  | .quit => amOsdQuit s
  | .opens dev_no para mem drv => amOsdOpen s dev_no para mem drv
  | .close dev_no => amOsdClose s dev_no

/-- The module and how many Inits are outstanding. -/
abbrev State := Globals × Int

def step (st : State) (c : Call) : State × Int :=
  let r := call st.1 c
  let inits := match c with
    | .init _ => st.2 + 1
    | .quit => st.2 - 1
    | _ => st.2
  ((r.1, inits), r.2)

/-- The static variables at the start are zero. -/
def start : State :=
  let para : OpenPara := ⟨0, 0, 0, 0, 0, false, 0⟩
  (⟨0, .null, false, fun _ => ⟨0, 0, para, false, false, false, none, none⟩⟩, 0)

/-- There is an Init for each Quit. -/
def Matched (st : State) : Call → Prop
  | .quit => 0 < st.2
  | _ => True

instance (st : State) : ∀ c, Decidable (Matched st c)
  | .init _ => inferInstanceAs (Decidable True)
  | .quit => inferInstanceAs (Decidable (0 < st.2))
  | .opens .. => inferInstanceAs (Decidable True)
  | .close _ => inferInstanceAs (Decidable True)

/-! ## What is asked of a step -/

def opened (s : Globals) : Int := ∑ i, if (s.devices i).openned then 1 else 0

/-- The counter counts the open devices and the outstanding Inits, and the shared resources are
there while it is positive. -/
structure Counts (st : State) : Prop where
  counter_eq : st.1.open_counter = opened st.1 + st.2
  colors_iff : st.1.colors = .live ↔ 0 < st.1.open_counter
  ops_iff : st.1.ops = true ↔ 0 < st.1.open_counter

/-- What an open device has of its surfaces and parameters. -/
structure Device.Keeps (d d' : Device) : Prop where
  surface_eq : d'.surface = d.surface
  display_eq : d'.display = d.display
  vout_eq : d'.vout_dev_no = d.vout_dev_no
  para_eq : d'.para = d.para
  buffer_eq : d'.enable_double_buffer = d.enable_double_buffer

/-- The step counts right, and an Open that fails leaves the open devices as they were. -/
structure Right (st : State) (c : Call) : Prop where
  counts : Counts (step st c).1
  keeps : ∀ dev_no para mem drv, c = .opens dev_no para mem drv → (step st c).2 ≠ AM_SUCCESS →
    ∀ i, (st.1.devices i).openned = true → (st.1.devices i).Keeps ((step st c).1.1.devices i)

/-- A device that has nothing to lose by being opened again. -/
structure Device.Bare (d : Device) (para : OpenPara) : Prop where
  surface_eq : d.surface = none
  display_eq : d.display = none
  vout_eq : d.vout_dev_no = para.vout_dev_no

/-- There is memory where the palette is allocated, and no device with surfaces or another output is
opened again. -/
def Harmless (st : State) : Call → Prop
  | .init mem => st.1.open_counter = 0 → mem = true
  | .quit => True
  | .opens dev_no para mem _ =>
    ∀ i, osdGetDev dev_no = some i →
      (st.1.open_counter = 0 → mem = true) ∧
        ((st.1.devices i).openned = true → (st.1.devices i).Bare para)
  | .close _ => True

instance (d : Device) (para : OpenPara) : Decidable (d.Bare para) :=
  decidable_of_iff (d.surface = none ∧ d.display = none ∧ d.vout_dev_no = para.vout_dev_no)
    ⟨fun h => ⟨h.1, h.2.1, h.2.2⟩, fun h => ⟨h.1, h.2, h.3⟩⟩

instance (st : State) : ∀ c, Decidable (Harmless st c)
  | .init mem => inferInstanceAs (Decidable (st.1.open_counter = 0 → mem = true))
  | .quit => inferInstanceAs (Decidable True)
  | .opens dev_no para mem _ => inferInstanceAs (Decidable (∀ i, osdGetDev dev_no = some i →
      (st.1.open_counter = 0 → mem = true) ∧
        ((st.1.devices i).openned = true → (st.1.devices i).Bare para)))
  | .close _ => inferInstanceAs (Decidable True)

/-! ## The shared resources -/

structure Shared (s : Globals) : Prop where
  nonneg : 0 ≤ s.open_counter
  colors_iff : s.colors = .live ↔ 0 < s.open_counter
  ops_iff : s.ops = true ↔ 0 < s.open_counter

theorem osdDeinit_devices (s : Globals) : (osdDeinit s).devices = s.devices := by
  unfold osdDeinit
  simp only
  split <;> rfl

theorem osdDeinit_counter (s : Globals) : (osdDeinit s).open_counter = s.open_counter - 1 := by
  unfold osdDeinit
  simp only
  split <;> rfl

theorem osdInit_devices (s : Globals) (mem : Bool) : (osdInit s mem).2.devices = s.devices := by
  unfold osdInit
  simp only
  split
  · rfl
  · split
    · exact osdDeinit_devices _
    · rfl

theorem osdDeinit_shared {s : Globals} (h : Shared s) (hpos : 0 < s.open_counter) :
    Shared (osdDeinit s) := by
  have hc := osdDeinit_counter s
  refine ⟨by omega, ?_, ?_⟩
  all_goals
    rw [hc]
    unfold osdDeinit
    simp only
    split
  · exact h.colors_iff.trans ⟨fun _ => by omega, fun _ => hpos⟩
  · refine iff_of_false ?_ (by omega)
    show (if s.colors = .null then Colors.null else .freed) ≠ .live
    split <;> exact Colors.noConfusion
  · exact h.ops_iff.trans ⟨fun _ => by omega, fun _ => hpos⟩
  · exact iff_of_false Bool.false_ne_true (by omega)

/-- With memory for the palette where it is needed. -/
theorem osdInit_shared {s : Globals} {mem : Bool} (h : Shared s)
    (hmem : s.open_counter = 0 → mem = true) :
    Shared (osdInit s mem).2 ∧ (osdInit s mem).2.open_counter = s.open_counter + 1 := by
  have hn := h.nonneg
  unfold osdInit
  simp only
  by_cases hc : s.open_counter + 1 ≠ 1
  · rw [if_pos hc]
    refine ⟨⟨?_, h.colors_iff.trans ?_, h.ops_iff.trans ?_⟩, rfl⟩
    · show 0 ≤ s.open_counter + 1
      omega
    all_goals
      show 0 < s.open_counter ↔ 0 < s.open_counter + 1
      omega
  · rw [if_neg hc, if_neg (not_not.mpr (hmem (by omega)))]
    have hpos : 0 < s.open_counter + 1 := by omega
    exact ⟨⟨hpos.le, iff_of_true rfl hpos, iff_of_true rfl hpos⟩, rfl⟩

theorem osdInit_noMem {s : Globals} (hc : s.open_counter = 0) :
    (osdInit s false).2.open_counter = 0 := by
  unfold osdInit
  simp only
  rw [if_neg (by omega), if_pos Bool.false_ne_true, osdDeinit_counter]
  show s.open_counter + 1 - 1 = 0
  omega

/-! ## Counting the open devices -/

theorem opened_congr {s s' : Globals} (h : s'.devices = s.devices) : opened s' = opened s := by
  rw [opened, opened, h]

theorem opened_nonneg (s : Globals) : 0 ≤ opened s :=
  Finset.sum_nonneg fun i _ => by split <;> decide

/-- An open device counts. -/
theorem opened_pos {s : Globals} {i : Fin OSD_DEV_COUNT} (h : (s.devices i).openned = true) :
    0 < opened s := by
  have hle := Finset.single_le_sum (f := fun i => if (s.devices i).openned then (1 : Int) else 0)
    (fun j _ => by split <;> decide) (Finset.mem_univ i)
  simp only [h, if_true] at hle
  exact hle

@[simp] theorem setDev_self (s : Globals) (i : Fin OSD_DEV_COUNT) (d : Device) :
    (s.setDev i d).devices i = d := by
  simp only [Globals.setDev, Function.update_self]

theorem setDev_of_ne (s : Globals) {i j : Fin OSD_DEV_COUNT} (d : Device) (h : j ≠ i) :
    (s.setDev i d).devices j = s.devices j := by
  simp only [Globals.setDev, Function.update_of_ne h]

theorem opened_setDev (s : Globals) (i : Fin OSD_DEV_COUNT) (d : Device) :
    opened (s.setDev i d) =
      opened s - (if (s.devices i).openned then 1 else 0) + if d.openned then 1 else 0 := by
  have hsum : ∀ devs : Fin OSD_DEV_COUNT → Device,
      (∑ j, if (devs j).openned then (1 : Int) else 0) =
        (if (devs i).openned then 1 else 0) +
          ∑ j ∈ Finset.univ.erase i, if (devs j).openned then (1 : Int) else 0 := fun devs =>
    (Finset.add_sum_erase Finset.univ (fun j => if (devs j).openned then (1 : Int) else 0)
      (Finset.mem_univ i)).symm
  have hrest : (∑ j ∈ Finset.univ.erase i,
        if ((s.setDev i d).devices j).openned then (1 : Int) else 0) =
      ∑ j ∈ Finset.univ.erase i, if (s.devices j).openned then (1 : Int) else 0 :=
    Finset.sum_congr rfl fun j hj => by rw [setDev_of_ne s d (Finset.ne_of_mem_erase hj)]
  rw [opened, opened, hsum, hsum s.devices, hrest, setDev_self]
  omega

/-! ## Steps -/

/-- What holds before each step. -/
structure Inv (st : State) : Prop where
  counts : Counts st
  inits : 0 ≤ st.2

theorem Inv.shared {st : State} (h : Inv st) : Shared st.1 := by
  have := h.counts.counter_eq
  have := opened_nonneg st.1
  have := h.inits
  exact ⟨by omega, h.counts.colors_iff, h.counts.ops_iff⟩

theorem Shared.counts {st : State} (h : Shared st.1)
    (hc : st.1.open_counter = opened st.1 + st.2) : Counts st :=
  ⟨hc, h.colors_iff, h.ops_iff⟩

theorem keeps_of_eq {s s' : Globals} {i : Fin OSD_DEV_COUNT} (h : s'.devices i = s.devices i) :
    (s.devices i).Keeps (s'.devices i) := by
  rw [h]
  exact ⟨rfl, rfl, rfl, rfl, rfl⟩

theorem right_init {st : State} (h : Inv st) (mem : Bool) :
    Right st (.init mem) ↔ Harmless st (.init mem) := by
  have hopened : opened (osdInit st.1 mem).2 = opened st.1 := opened_congr (osdInit_devices _ _)
  have hc := h.counts.counter_eq
  constructor
  · intro hr hzero
    by_contra hmem
    have hmem' : mem = false := Bool.eq_false_iff.mpr hmem
    subst hmem'
    have hcount : (osdInit st.1 false).2.open_counter =
        opened (osdInit st.1 false).2 + (st.2 + 1) :=
      hr.counts.counter_eq
    rw [osdInit_noMem hzero, hopened] at hcount
    omega
  · intro hmem
    obtain ⟨hs, hcount⟩ := osdInit_shared h.shared hmem
    refine ⟨Shared.counts hs ?_, fun _ _ _ _ hcall => Call.noConfusion hcall⟩
    show (osdInit st.1 mem).2.open_counter = opened (osdInit st.1 mem).2 + (st.2 + 1)
    omega

theorem right_quit {st : State} (h : Inv st) (hm : Matched st .quit) : Right st .quit := by
  have hpos : 0 < st.1.open_counter := by
    have := h.counts.counter_eq
    have := opened_nonneg st.1
    have : 0 < st.2 := hm
    omega
  refine ⟨Shared.counts (osdDeinit_shared h.shared hpos) ?_,
    fun _ _ _ _ hcall => Call.noConfusion hcall⟩
  show (osdDeinit st.1).open_counter = opened (osdDeinit st.1) + (st.2 - 1)
  rw [osdDeinit_counter, opened_congr (osdDeinit_devices _), h.counts.counter_eq]
  omega

theorem right_close {st : State} (h : Inv st) (dev_no : Int) : Right st (.close dev_no) := by
  refine ⟨?_, fun _ _ _ _ hcall => Call.noConfusion hcall⟩
  show Counts ((amOsdClose st.1 dev_no).1, st.2)
  unfold amOsdClose
  cases osdGetDev dev_no with
  | none => exact h.counts
  | some i =>
    simp only
    by_cases ho : (st.1.devices i).openned = true
    · rw [if_neg (not_not.mpr ho)]
      have hc := h.counts.counter_eq
      have hpos := opened_pos ho
      have hshared : Shared (st.1.setDev i { st.1.devices i with openned := false }) :=
        ⟨h.shared.nonneg, h.shared.colors_iff, h.shared.ops_iff⟩
      have hcount := opened_setDev st.1 i { st.1.devices i with openned := false }
      rw [if_pos ho, if_neg Bool.false_ne_true] at hcount
      have hi := h.inits
      have hpos' : 0 < (st.1.setDev i { st.1.devices i with openned := false }).open_counter := by
        show 0 < st.1.open_counter
        omega
      refine Shared.counts (osdDeinit_shared hshared hpos') ?_
      show (osdDeinit _).open_counter = opened (osdDeinit _) + st.2
      rw [osdDeinit_counter, opened_congr (osdDeinit_devices _), hcount]
      show st.1.open_counter - 1 = _
      omega
    · rw [if_pos ho]
      exact h.counts

/-! ### Opening -/

section Opening

variable {st : State} {dev_no : Int} {para : OpenPara} {mem : Bool} {drv : Driven}
variable {i : Fin OSD_DEV_COUNT}

/-- A device that is open already. -/
theorem amOsdOpen_busy (para : OpenPara) (mem : Bool) (drv : Driven)
    (hi : osdGetDev dev_no = some i) (ho : (st.1.devices i).openned = true) :
    amOsdOpen st.1 dev_no para mem drv =
      ((osdDeinit (osdInit st.1 mem).2).setDev i ((st.1.devices i).reset dev_no para),
        AM_OSD_ERR_BUSY) := by
  unfold amOsdOpen
  rw [hi]
  simp only [osdInit_devices, ho, if_true, osdDeinit_devices]

/-- The driver fails. -/
theorem amOsdOpen_failed (para : OpenPara) (mem : Bool)
    (hi : osdGetDev dev_no = some i) (ho : (st.1.devices i).openned ≠ true)
    (hret : drv.ret ≠ AM_SUCCESS) :
    ∃ d : Device, d.openned = (st.1.devices i).openned ∧
      amOsdOpen st.1 dev_no para mem drv =
        ((osdDeinit (osdInit st.1 mem).2).setDev i d, drv.ret) := by
  unfold amOsdOpen
  rw [hi]
  simp only [osdInit_devices, Bool.eq_false_iff.mpr ho, Bool.false_eq_true, if_false, if_pos hret]
  exact ⟨{ (st.1.devices i).reset dev_no para with surface := drv.surface, display := drv.display },
    Bool.eq_false_iff.mpr ho, rfl⟩

theorem amOsdOpen_succeeds (para : OpenPara) (mem : Bool)
    (hi : osdGetDev dev_no = some i) (ho : (st.1.devices i).openned ≠ true)
    (hret : drv.ret = AM_SUCCESS) :
    ∃ d : Device, d.openned = true ∧
      amOsdOpen st.1 dev_no para mem drv = ((osdInit st.1 mem).2.setDev i d, AM_SUCCESS) := by
  unfold amOsdOpen
  rw [hi]
  simp only [osdInit_devices, Bool.eq_false_iff.mpr ho, Bool.false_eq_true, if_false,
    if_neg (not_not.mpr hret)]
  exact ⟨_, rfl, rfl⟩

/-- Without memory for the palette the counter stays behind; it gets below zero when the driver
fails. -/
theorem not_right_noMem (h : Inv st) (hi : osdGetDev dev_no = some i)
    (hzero : st.1.open_counter = 0) : ¬ Right st (.opens dev_no para false drv) := by
  intro hr
  have hc := h.counts.counter_eq
  have hn := opened_nonneg st.1
  have hinits := h.inits
  have hinit := osdInit_noMem hzero
  have ho : (st.1.devices i).openned ≠ true := fun ho => by
    have := opened_pos ho
    omega
  have hopened := opened_congr (osdInit_devices st.1 false)
  have hdev : (osdInit st.1 false).2.devices i = st.1.devices i := by rw [osdInit_devices]
  have hcount : (amOsdOpen st.1 dev_no para false drv).1.open_counter =
      opened (amOsdOpen st.1 dev_no para false drv).1 + st.2 := hr.counts.counter_eq
  by_cases hret : drv.ret = AM_SUCCESS
  · obtain ⟨d, hd, hopen⟩ := amOsdOpen_succeeds para false hi ho hret
    rw [hopen, opened_setDev, hdev, if_neg ho, if_pos hd] at hcount
    have : (osdInit st.1 false).2.open_counter = _ := hcount
    omega
  · obtain ⟨d, hd, hopen⟩ := amOsdOpen_failed para false hi ho hret
    rw [hopen, opened_setDev, hd, osdDeinit_devices, hdev, if_neg ho,
      opened_congr (osdDeinit_devices _)] at hcount
    have : (osdDeinit (osdInit st.1 false).2).open_counter = _ := hcount
    rw [osdDeinit_counter] at this
    omega

/-- The counters of an Open for which there is memory. -/
theorem counts_open (h : Inv st) (hi : osdGetDev dev_no = some i)
    (hmem : st.1.open_counter = 0 → mem = true) :
    Counts ((amOsdOpen st.1 dev_no para mem drv).1, st.2) := by
  obtain ⟨hs, hcount⟩ := osdInit_shared h.shared hmem
  have hc := h.counts.counter_eq
  have hn := h.shared.nonneg
  have hdev : (osdInit st.1 mem).2.devices i = st.1.devices i := by rw [osdInit_devices]
  have hopened := opened_congr (osdInit_devices st.1 mem)
  have hs' := osdDeinit_shared hs (by omega)
  have hcount' : (osdDeinit (osdInit st.1 mem).2).open_counter = st.1.open_counter := by
    rw [osdDeinit_counter, hcount]
    omega
  have hopened' : opened (osdDeinit (osdInit st.1 mem).2) = opened st.1 := by
    rw [opened_congr (osdDeinit_devices _), hopened]
  have hdev' : (osdDeinit (osdInit st.1 mem).2).devices i = st.1.devices i := by
    rw [osdDeinit_devices, hdev]
  -- given back, with the device as open as before
  have back : ∀ d : Device, d.openned = (st.1.devices i).openned →
      Counts ((osdDeinit (osdInit st.1 mem).2).setDev i d, st.2) := by
    intro d hd
    refine Shared.counts ⟨hs'.nonneg, hs'.colors_iff, hs'.ops_iff⟩ ?_
    show (osdDeinit (osdInit st.1 mem).2).open_counter = opened (Globals.setDev _ i d) + st.2
    rw [opened_setDev, hdev', hd, hcount', hopened', hc]
    omega
  by_cases ho : (st.1.devices i).openned = true
  · rw [amOsdOpen_busy para mem drv hi ho]
    exact back _ rfl
  by_cases hret : drv.ret = AM_SUCCESS
  · obtain ⟨d, hd, hopen⟩ := amOsdOpen_succeeds para mem hi ho hret
    rw [hopen]
    refine Shared.counts ⟨hs.nonneg, hs.colors_iff, hs.ops_iff⟩ ?_
    show (osdInit st.1 mem).2.open_counter = opened (Globals.setDev _ i d) + st.2
    rw [opened_setDev, hdev, if_neg ho, if_pos hd, hcount, hopened, hc]
    omega
  · obtain ⟨d, hd, hopen⟩ := amOsdOpen_failed para mem hi ho hret
    rw [hopen]
    exact back d hd

/-- The other devices are as they were. -/
theorem amOsdOpen_of_ne (hi : osdGetDev dev_no = some i) {j : Fin OSD_DEV_COUNT} (hj : j ≠ i) :
    (amOsdOpen st.1 dev_no para mem drv).1.devices j = st.1.devices j := by
  by_cases ho : (st.1.devices i).openned = true
  · rw [amOsdOpen_busy para mem drv hi ho, setDev_of_ne _ _ hj, osdDeinit_devices, osdInit_devices]
  by_cases hret : drv.ret = AM_SUCCESS
  · obtain ⟨d, -, hopen⟩ := amOsdOpen_succeeds para mem hi ho hret
    rw [hopen, setDev_of_ne _ _ hj, osdInit_devices]
  · obtain ⟨d, -, hopen⟩ := amOsdOpen_failed para mem hi ho hret
    rw [hopen, setDev_of_ne _ _ hj, osdDeinit_devices, osdInit_devices]

theorem keeps_reset_iff (d : Device) : d.Keeps (d.reset dev_no para) ↔ d.Bare para := by
  constructor
  · exact fun h => ⟨h.surface_eq.symm, h.display_eq.symm, h.vout_eq.symm⟩
  · exact fun h => ⟨h.surface_eq.symm, h.display_eq.symm, h.vout_eq.symm, rfl, rfl⟩

theorem right_open (h : Inv st) :
    Right st (.opens dev_no para mem drv) ↔ Harmless st (.opens dev_no para mem drv) := by
  constructor
  · intro hr i hi
    constructor
    · intro hzero
      by_contra hmem
      have hmem' : mem = false := Bool.eq_false_iff.mpr hmem
      subst hmem'
      exact not_right_noMem h hi hzero hr
    · intro ho
      have hbusy := amOsdOpen_busy para mem drv hi ho
      have hkeeps : (st.1.devices i).Keeps ((amOsdOpen st.1 dev_no para mem drv).1.devices i) :=
        hr.keeps dev_no para mem drv rfl (by
          show (amOsdOpen st.1 dev_no para mem drv).2 ≠ AM_SUCCESS
          rw [hbusy]
          show AM_OSD_ERR_BUSY ≠ AM_SUCCESS
          decide) i ho
      rw [hbusy, setDev_self] at hkeeps
      exact (keeps_reset_iff _).mp hkeeps
  · intro hok
    cases hi : osdGetDev dev_no with
    | none =>
      have hopen : amOsdOpen st.1 dev_no para mem drv = (st.1, AM_OSD_ERR_INVALID_DEV_NO) := by
        unfold amOsdOpen
        rw [hi]
      constructor
      · show Counts ((amOsdOpen st.1 dev_no para mem drv).1, st.2)
        rw [hopen]
        exact h.counts
      · intro _ _ _ _ _ _ j _
        refine keeps_of_eq ?_
        show (amOsdOpen st.1 dev_no para mem drv).1.devices j = _
        rw [hopen]
    | some i =>
      obtain ⟨hmem, hbare⟩ := hok i hi
      refine ⟨counts_open h hi hmem, fun _ _ _ _ _ _ j hj => ?_⟩
      show (st.1.devices j).Keeps ((amOsdOpen st.1 dev_no para mem drv).1.devices j)
      by_cases hji : j = i
      · subst hji
        rw [amOsdOpen_busy para mem drv hi hj, setDev_self]
        exact (keeps_reset_iff _).mpr (hbare hj)
      · exact keeps_of_eq (amOsdOpen_of_ne hi hji)

end Opening

/-! ## Runs -/

theorem Inv.start : Inv start := by
  have hzero : opened Osd.start.1 = 0 := Finset.sum_eq_zero fun _ _ => rfl
  refine ⟨⟨?_, iff_of_false Colors.noConfusion (Int.lt_irrefl 0),
    iff_of_false Bool.false_ne_true (Int.lt_irrefl 0)⟩, Int.le_refl 0⟩
  rw [hzero]
  rfl

theorem right_iff_harmless {st : State} {c : Call} (h : Inv st) (hm : Matched st c) :
    Right st c ↔ Harmless st c := by
  cases c with
  | init mem => exact right_init h mem
  | quit => exact iff_of_true (right_quit h hm) trivial
  | opens dev_no para mem drv => exact right_open h
  | close dev_no => exact iff_of_true (right_close h dev_no) trivial

theorem Right.inv {st : State} {c : Call} (h : Inv st) (hm : Matched st c) (hr : Right st c) :
    Inv (step st c).1 := by
  refine ⟨hr.counts, ?_⟩
  have := h.inits
  cases c with
  | init mem =>
    show 0 ≤ st.2 + 1
    omega
  | quit =>
    have : 0 < st.2 := hm
    show 0 ≤ st.2 - 1
    omega
  | opens dev_no para mem drv => exact h.inits
  | close dev_no => exact h.inits

/-- **The bookkeeping over a run**: every step is right just when there is memory for the palette
each time that it is allocated, and no device is opened again that has something to lose. -/
theorem devices_right_iff (calls : List Call) (hm : Each Matched step start calls) :
    Each Right step start calls ↔ Each Harmless step start calls := by
  have hstep : ∀ st c, Inv st → Matched st c →
      (Right st c ↔ Harmless st c) ∧ (Harmless st c → Inv (step st c).1) := fun st c h hm =>
    ⟨right_iff_harmless h hm, fun hok => Right.inv h hm ((right_iff_harmless h hm).mpr hok)⟩
  exact each_iff_of_frame hstep Inv.start hm

def examplePara : OpenPara := ⟨0, 1280, 720, 1280, 720, true, 0⟩

/-- Two devices, the second after its driver has failed once. -/
def exampleCalls : List Call :=
  [.init true,
    .opens 0 examplePara true ⟨AM_SUCCESS, some 1, some 2⟩,
    .opens 1 examplePara true ⟨1, none, none⟩,
    .opens 1 examplePara true ⟨AM_SUCCESS, some 3, none⟩,
    .quit, .close 0, .close 1]

theorem devices_right_exampleCalls : Each Right step start exampleCalls :=
  (devices_right_iff exampleCalls (by decide)).mpr (by decide)

/-- The device is opened twice. -/
theorem devices_not_right_twice :
    Each Matched step start [.opens 0 examplePara true ⟨AM_SUCCESS, some 1, some 2⟩,
        .opens 0 examplePara true ⟨AM_SUCCESS, some 1, some 2⟩] ∧
      ¬ Each Right step start [.opens 0 examplePara true ⟨AM_SUCCESS, some 1, some 2⟩,
        .opens 0 examplePara true ⟨AM_SUCCESS, some 1, some 2⟩] := by
  refine ⟨by decide, fun h => ?_⟩
  have hkeeps := (h.2.1.keeps _ _ _ _ rfl (by decide) ⟨0, by decide⟩ (by decide)).surface_eq
  exact absurd hkeeps (by decide)

end VendorAmlogic.Osd
