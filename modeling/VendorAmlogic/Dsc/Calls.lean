import VendorAmlogic.Dsc.Devices

/-!
# One call on a descrambler

A call that does not need the work mode is the same in each. One that needs it
succeeds in the work mode that `get_work_mode` finds, and what it allocates and
releases is what it changes of the channels in use; a close in secure mode
releases all channels.
-/

namespace VendorAmlogic.Dsc

open VendorAmlogic.Lib

/-! ## The work mode -/

/-- The work mode once it is known. -/
def settled (lib : Library) : Globals := getWorkMode lib initial

/-- `get_functions` says the same whether it has found all or not. -/
theorem getWorkMode_loads (has : SecFunction → Bool) {g : Globals} (h : g.mode = .max) :
    getWorkMode (.loads has) g = ⟨.sec, true, fun f => if has f then .loaded else .null⟩ := by
  have hret : (getFunctions has).2 = AM_SUCCESS := by
    simp only [getFunctions]
    split <;> rfl
  simp only [getWorkMode, h, ne_eq, not_true_eq_false, if_false, hret]
  rfl

theorem settled_cases (lib : Library) :
    ((settled lib).mode = .normal ∧ ¬ lib.opens = true) ∨
      ((settled lib).mode = .sec ∧ lib.opens = true) := by
  cases lib with
  | missing => exact .inl ⟨rfl, Bool.false_ne_true⟩
  | loads has =>
    refine .inr ⟨?_, rfl⟩
    rw [settled, getWorkMode_loads has rfl]

theorem serves_of_not_opens {lib : Library} (h : ¬ lib.opens = true) (c : Call) :
    lib.Serves c := by
  cases lib with
  | missing => exact trivial
  | loads has => exact absurd rfl h

/-- The pointers that a call comes to are to functions if the library has them. -/
theorem serves_iff_loaded {lib : Library} (h : lib.opens = true) (c : Call) :
    lib.Serves c ↔ ∀ f ∈ c.functions, (settled lib).funcs f = .loaded := by
  cases lib with
  | missing => exact absurd h Bool.false_ne_true
  | loads has =>
    have hfuncs : ∀ f, (settled (.loads has)).funcs f = .loaded ↔ has f = true := fun f => by
      rw [settled, getWorkMode_loads has rfl]
      cases hf : has f with
      | false => simp [hf]
      | true => simp [hf]
    exact forall₂_congr fun f _ => (hfuncs f).symm

theorem settled_ne (lib : Library) :
    (settled lib).mode ≠ .max ∧ (settled lib).mode ≠ .unset := by
  rcases settled_cases lib with ⟨h, -⟩ | ⟨h, -⟩ <;>
  exact ⟨h ▸ WorkMode.noConfusion, h ▸ WorkMode.noConfusion⟩

theorem getWorkMode_of_ne {lib : Library} {g : Globals} (h : g.mode ≠ .max) :
    getWorkMode lib g = g := if_pos h

theorem getWorkMode_settled (lib : Library) : getWorkMode lib (settled lib) = settled lib :=
  getWorkMode_of_ne (settled_ne lib).1

@[simp] theorem setChan_self (dev : Device) (i : Fin DSC_CHANNEL_COUNT) (chan : Channel) :
    (dev.setChan i chan).channels i = chan := Function.update_self _ _ _

theorem setChan_of_ne (dev : Device) {i j : Fin DSC_CHANNEL_COUNT} (chan : Channel) (h : j ≠ i) :
    (dev.setChan i chan).channels j = dev.channels j := Function.update_of_ne h _ _

section Acts

variable {lib : Library} {c : Call} {g : Globals} {dev : Device}

/-- Who changes the globals. -/
theorem act_globals (lib : Library) (c : Call) (g : Globals) (dev : Device) :
    (act lib c g dev).1 = g ∨ ((∃ d, c = .opens d) ∧ (act lib c g dev).1 = getWorkMode lib g) ∨
      (Dispatches dev c ∧ (act lib c g dev).1.mode = .unset ∧
        (act lib c g dev).2.1.openned = false) := by
  cases c with
  | opens d =>
    refine .inr (.inl ⟨⟨d, rfl⟩, ?_⟩)
    simp only [act, amDscOpen]
    split <;> rfl
  | allocateChannel d path =>
    refine .inl ?_
    simp only [act, openned, amDscAllocateChannel]
    split
    · rfl
    · split
      · rfl
      · split <;> rfl
  | setChannelPID d chan_id pid =>
    refine .inl ?_
    simp only [act, openned, amDscSetChannelPID]
    split
    · rfl
    · split <;> rfl
  | setKey d chan_id type key =>
    refine .inl ?_
    simp only [act, openned, amDscSetKey]
    split
    · rfl
    · split
      · rfl
      · split
        · rfl
        · split <;> rfl
        · rfl
  | freeChannel d chan_id =>
    refine .inl ?_
    simp only [act, openned, amDscFreeChannel]
    split
    · rfl
    · split <;> rfl
  | close d =>
    simp only [act, openned, amDscClose]
    split
    · exact .inl rfl
    · rename_i ho
      refine .inr (.inr ⟨not_not.mp ho, ?_⟩)
      split <;> exact ⟨rfl, rfl⟩

theorem act_unset (h : g.mode = .unset) : (act lib c g dev).1.mode = .unset := by
  rcases act_globals lib c g dev with hg | ⟨-, hg⟩ | ⟨-, hg, -⟩
  · rw [hg, h]
  · rw [hg, getWorkMode_of_ne (h ▸ WorkMode.noConfusion), h]
  · exact hg

/-- What a device has of its channels. -/
structure Device.Same (dev dev' : Device) : Prop where
  openned_eq : dev'.openned = dev.openned
  used_eq : ∀ i, (dev'.channels i).used = (dev.channels i).used
  path_eq : ∀ i, (dev'.channels i).stream_path = (dev.channels i).stream_path

theorem Device.Same.refl (dev : Device) : dev.Same dev := ⟨rfl, fun _ => rfl, fun _ => rfl⟩

/-- What the call does to the device and returns; nothing is allocated or released by it. -/
structure Still (lib : Library) (c : Call) (dev dev' : Device) (ret : Int) (g : Globals) :
    Prop where
  device : (act lib c g dev).2.1 = dev'
  ret : (act lib c g dev).2.2.ret = some ret
  events : ∀ e ∈ (act lib c g dev).2.2.events,
    e.mode = .normal ∧ ∀ x, e.op ≠ .alloc x ∧ e.op ≠ .free x

theorem still_of_eq {g g' : Globals} {ret : Int} {chan_id : Option Int}
    (h : act lib c g dev = (g', dev, ⟨some ret, chan_id, []⟩)) : Still lib c dev dev ret g := by
  refine ⟨?_, ?_, ?_⟩
  all_goals rw [h]
  exact fun e he => absurd he List.not_mem_nil

theorem act_of_not (ho : ¬ dev.openned = true) (hc : ∀ d, c ≠ .opens d) (g : Globals) :
    act lib c g dev = (g, dev, .of AM_DSC_ERR_INVALID_DEV_NO) := by
  cases c with
  | opens d => exact absurd rfl (hc d)
  | _ => exact if_pos ho

theorem openned_of {f : Globals → Device → Globals × Device × Outcome} (h : dev.openned = true)
    (g : Globals) : openned f g dev = f g dev := if_neg (not_not.mpr h)

/-- A call that does not need the work mode does the same in each. -/
theorem act_still (lib : Library) (hd : ¬ Dispatches dev c) :
    ∃ dev' ret, dev.Same dev' ∧ ∀ g, Still lib c dev dev' ret g := by
  have quiet : ∀ ret, (∀ g, ∃ g' chan_id,
      act lib c g dev = (g', dev, ⟨some ret, chan_id, []⟩)) →
      ∃ dev' ret, dev.Same dev' ∧ ∀ g, Still lib c dev dev' ret g := fun ret h =>
    ⟨dev, ret, .refl dev, fun g => still_of_eq (h g).choose_spec.choose_spec⟩
  by_cases ho : dev.openned = true
  swap
  · have hc : ∀ d, c ≠ .opens d := fun d hc => hd (hc ▸ Bool.eq_false_iff.mpr ho)
    exact quiet AM_DSC_ERR_INVALID_DEV_NO fun g => ⟨g, none, act_of_not ho hc g⟩
  cases c with
  | opens d =>
    refine quiet AM_DSC_ERR_BUSY fun g => ⟨getWorkMode lib g, none, ?_⟩
    simp only [act, amDscOpen, ho, if_true]
    rfl
  | allocateChannel d path =>
    have hfind : ((List.finRange DSC_CHANNEL_COUNT).find? fun i => ¬ (dev.channels i).used) =
        none := by
      rw [List.find?_eq_none]
      intro i _ hi
      rw [decide_eq_true_iff, Bool.not_eq_true] at hi
      exact hd ⟨ho, i, hi⟩
    refine quiet AM_DSC_ERR_NO_FREE_CHAN fun g => ⟨g, some DSC_CHANNEL_COUNT, ?_⟩
    rw [act, openned_of ho, amDscAllocateChannel, hfind]
    rfl
  | setChannelPID d chan_id pid =>
    cases hchan : dscGetUsedChan dev chan_id with
    | error e =>
      refine quiet e fun g => ⟨g, none, ?_⟩
      rw [act, openned_of ho, amDscSetChannelPID, hchan]
      rfl
    | ok i =>
      have hsame : dev.Same (dev.setChan i { dev.channels i with pid := pid }) := by
        refine ⟨rfl, fun j => ?_, fun j => ?_⟩
        all_goals
          by_cases hj : j = i
          · subst hj
            rw [setChan_self]
          · rw [setChan_of_ne dev _ hj]
      refine ⟨_, AM_SUCCESS, hsame, fun g => ?_⟩
      have hact : act lib (.setChannelPID d chan_id pid) g dev =
          (g, dev.setChan i { dev.channels i with pid := pid },
            if g.mode = .normal then g.drv (.setPid (.chan d i) pid) else .of AM_SUCCESS) := by
        rw [act, openned_of ho, amDscSetChannelPID, hchan]
      refine ⟨?_, ?_, ?_⟩
      all_goals rw [hact]
      · show (if g.mode = .normal then _ else _ : Outcome).ret = _
        split <;> rfl
      · intro e he
        by_cases hmode : g.mode = .normal
        · rw [if_pos hmode] at he
          obtain rfl := List.mem_singleton.mp he
          exact ⟨hmode, fun x => ⟨Op.noConfusion, Op.noConfusion⟩⟩
        · rw [if_neg hmode] at he
          exact absurd he List.not_mem_nil
  | setKey d chan_id type key =>
    cases hchan : dscGetUsedChan dev chan_id with
    | error e =>
      refine quiet e fun g => ⟨g, none, ?_⟩
      rw [act, openned_of ho, amDscSetKey, hchan]
      rfl
    | ok i => exact absurd ⟨ho, by rw [hchan]; rfl⟩ hd
  | freeChannel d chan_id =>
    cases hchan : dscGetUsedChan dev chan_id with
    | error e =>
      refine quiet e fun g => ⟨g, none, ?_⟩
      rw [act, openned_of ho, amDscFreeChannel, hchan]
      rfl
    | ok i => exact absurd ⟨ho, by rw [hchan]; rfl⟩ hd
  | close d => exact absurd ho hd

/-! ## Calls that need the work mode -/

/-- The channels of a device under a handle, before it is known whether it is open. -/
theorem sum_setChan (f : Fin DSC_CHANNEL_COUNT → Channel → Nat) (dev : Device)
    (i : Fin DSC_CHANNEL_COUNT) (chan : Channel) :
    (∑ j, f j ((dev.setChan i chan).channels j)) + f i (dev.channels i) =
      (∑ j, f j (dev.channels j)) + f i chan := by
  have hsum : ∀ chans : Fin DSC_CHANNEL_COUNT → Channel, (∑ j, f j (chans j)) =
      f i (chans i) + ∑ j ∈ Finset.univ.erase i, f j (chans j) := fun chans =>
    (Finset.add_sum_erase Finset.univ (fun j => f j (chans j)) (Finset.mem_univ i)).symm
  have hrest : (∑ j ∈ Finset.univ.erase i, f j ((dev.setChan i chan).channels j)) =
      ∑ j ∈ Finset.univ.erase i, f j (dev.channels j) :=
    Finset.sum_congr rfl fun j hj => by
      rw [setChan_of_ne dev chan (Finset.ne_of_mem_erase hj)]
  rw [hsum, hsum dev.channels, hrest, setChan_self]
  omega

theorem inUse_of_same {dev' : Device} (h : dev.Same dev') (d : Int) (x : Handle) :
    dev'.inUse lib d x = dev.inUse lib d x := by
  have hcounts : ∀ i, (dev'.channels i).counts lib d x i = (dev.channels i).counts lib d x i :=
    fun i => by rw [Channel.counts, Channel.counts, handle, handle, h.used_eq, h.path_eq]
  rw [Device.inUse, Device.inUse, h.openned_eq, Finset.sum_congr rfl fun i _ => hcounts i]

/-- The books of a call: what it allocates and releases is what it changes of the channels in
use. -/
def Balanced (lib : Library) (d : Int) (dev : Device) (r : Globals × Device × Outcome) : Prop :=
  ∀ x, allocs x r.2.2.events + dev.inUse lib d x = frees x r.2.2.events + r.2.1.inUse lib d x

theorem count_still {events : List Event} (x : Handle)
    (h : ∀ e ∈ events, e.op ≠ .alloc x ∧ e.op ≠ .free x) :
    allocs x events = 0 ∧ frees x events = 0 := by
  constructor
  all_goals
    refine List.countP_eq_zero.mpr fun e he => ?_
    rw [decide_eq_true_iff]
  · exact (h e he).1
  · exact (h e he).2

theorem balanced_of_same {r : Globals × Device × Outcome} (h : dev.Same r.2.1)
    (he : ∀ x, ∀ e ∈ r.2.2.events, e.op ≠ .alloc x ∧ e.op ≠ .free x) (d : Int) :
    Balanced lib d dev r := by
  intro x
  obtain ⟨ha, hf⟩ := count_still x (he x)
  rw [ha, hf, inUse_of_same h]

/-- The call succeeds if the library has what it comes to, and what it calls it calls in the work mode
that is known. -/
structure Done (lib : Library) (c : Call) (r : Globals × Device × Outcome) : Prop where
  ret : r.2.2.ret = if lib.Serves c then some AM_SUCCESS else none
  modes : ∀ e ∈ r.2.2.events, e.mode = (settled lib).mode

theorem drv_done (h : ¬ lib.opens = true) (c : Call) (dev : Device) (op : Op)
    (chan_id : Option Int) :
    Done lib c (settled lib, dev, { (settled lib).drv op with chan_id := chan_id }) :=
  ⟨(if_pos (serves_of_not_opens h c)).symm, fun _ he => List.mem_singleton.mp he ▸ rfl⟩

theorem secure_done (h : lib.opens = true) {f : SecFunction} (hc : c.functions = [f])
    (dev : Device) (op : Op) (chan_id : Option Int) :
    Done lib c (settled lib, dev, { (settled lib).secure f op with chan_id := chan_id }) := by
  have hserves : lib.Serves c ↔ (settled lib).funcs f = .loaded := by
    rw [serves_iff_loaded h, hc]
    exact List.forall_mem_singleton
  exact ⟨if_congr hserves.symm rfl rfl, fun _ he => List.mem_singleton.mp he ▸ rfl⟩

theorem counts_of_unused {chan : Channel} (h : chan.used = false) (d : Int) (x : Handle)
    (i : Fin DSC_CHANNEL_COUNT) : chan.counts lib d x i = 0 :=
  if_neg fun hc => Bool.false_ne_true (h.symm.trans hc.1)

theorem inUse_of_free (lib : Library) (h : ∀ i, (dev.channels i).used = false) (d : Int)
    (x : Handle) :
    dev.inUse lib d x = 0 := by
  unfold Device.inUse
  split
  · exact Finset.sum_eq_zero fun i _ => counts_of_unused (h i) d x i
  · rfl

theorem inUse_of_not (h : dev.openned = false) (d : Int) (x : Handle) : dev.inUse lib d x = 0 :=
  if_neg (Bool.not_eq_true _ ▸ h)

theorem inUse_of_openned (h : dev.openned = true) (d : Int) (x : Handle) :
    dev.inUse lib d x = ∑ i, (dev.channels i).counts lib d x i := if_pos h

/-- One event of a channel. -/
theorem allocs_one (x h : Handle) (m : WorkMode) :
    allocs x [⟨m, .alloc h⟩] = (if h = x then 1 else 0) ∧ frees x [⟨m, .alloc h⟩] = 0 := by
  simp [allocs, frees]

theorem frees_one (x h : Handle) (m : WorkMode) :
    allocs x [⟨m, .free h⟩] = 0 ∧ frees x [⟨m, .free h⟩] = if h = x then 1 else 0 := by
  simp [allocs, frees]

theorem open_done (lib : Library) (d : Int) (ho : dev.openned = false) :
    let r := act lib (.opens d) (settled lib) dev
    Done lib (.opens d) r ∧
      r.2.1 = { dev with dev_no := d, openned := lib.Serves (.opens d) } ∧
      ∀ x, ∀ e ∈ r.2.2.events, e.op ≠ .alloc x ∧ e.op ≠ .free x := by
  intro r
  have hr : r = act lib (.opens d) (settled lib) dev := rfl
  simp only [act, amDscOpen, getWorkMode_settled, ho, Bool.false_eq_true, if_false] at hr
  have opened : ∀ {out : Outcome}, Done lib (.opens d) (settled lib, dev, out) →
      decide (out.ret = some AM_SUCCESS) = decide (lib.Serves (.opens d)) := fun hdone => by
    rw [hdone.ret]
    by_cases hs : lib.Serves (.opens d)
    · simp [hs]
    · simp [hs]
  rcases settled_cases lib with ⟨hm, hl⟩ | ⟨hm, hl⟩
  · rw [if_pos hm] at hr
    rw [hr]
    refine ⟨drv_done hl _ _ _ none, ?_, fun x e he => ?_⟩
    · rw [opened (drv_done hl _ _ _ none)]
    · obtain rfl := List.mem_singleton.mp he
      exact ⟨Op.noConfusion, Op.noConfusion⟩
  · rw [if_neg (hm ▸ WorkMode.noConfusion)] at hr
    rw [hr]
    refine ⟨secure_done hl rfl _ _ none, ?_, fun x e he => ?_⟩
    · rw [opened (secure_done hl rfl _ _ none)]
    · obtain rfl := List.mem_singleton.mp he
      exact ⟨Op.noConfusion, Op.noConfusion⟩

/-- The channel that is found to be free. -/
theorem exists_free (h : ∃ i, (dev.channels i).used = false) :
    ∃ i, ((List.finRange DSC_CHANNEL_COUNT).find? fun i => ¬ (dev.channels i).used) = some i ∧
      (dev.channels i).used = false := by
  obtain ⟨i, hfind⟩ : ∃ i, ((List.finRange DSC_CHANNEL_COUNT).find? fun i =>
      ¬ (dev.channels i).used) = some i := by
    rw [← Option.isSome_iff_exists, List.find?_isSome]
    obtain ⟨i, hi⟩ := h
    exact ⟨i, List.mem_finRange i, by rw [hi]; decide⟩
  refine ⟨i, hfind, ?_⟩
  have := List.find?_some hfind
  rwa [decide_eq_true_iff, Bool.not_eq_true] at this

/-- The books when one channel changes. -/
theorem balanced_setChan {lib : Library} {d : Int} (ho : dev.openned = true)
    {i : Fin DSC_CHANNEL_COUNT} {chan : Channel} {out : Outcome}
    (h : ∀ x, allocs x out.events + (dev.channels i).counts lib d x i =
      frees x out.events + chan.counts lib d x i) :
    Balanced lib d dev (settled lib, dev.setChan i chan, out) := by
  intro x
  have hsum := sum_setChan (fun j c => c.counts lib d x j) dev i chan
  have ho' : (dev.setChan i chan).openned = true := ho
  have hx := h x
  show allocs x out.events + _ = frees x out.events + (dev.setChan i chan).inUse lib d x
  rw [inUse_of_openned ho, inUse_of_openned ho']
  omega

theorem alloc_done (lib : Library) (d : Int) (path : BitVec 8) (ho : dev.openned = true)
    (hfree : ∃ i, (dev.channels i).used = false) :
    let r := act lib (.allocateChannel d path) (settled lib) dev
    Done lib (.allocateChannel d path) r ∧ r.2.1.openned = true ∧ Balanced lib d dev r := by
  obtain ⟨i, hfind, hi⟩ := exists_free hfree
  -- the books when this channel gets in use as it is allocated
  have balanced : ∀ (chan : Channel) (out : Outcome) (m : WorkMode), chan.used = true →
      out.events = [⟨m, .alloc (handle lib d i chan)⟩] →
      Balanced lib d dev (settled lib, dev.setChan i chan, out) := by
    intro chan out m hused hevents
    refine balanced_setChan ho fun x => ?_
    rw [hevents, (allocs_one x _ m).1, (allocs_one x _ m).2, counts_of_unused hi]
    simp only [Channel.counts, hused, true_and]
    omega
  intro r
  have hr : r = act lib (.allocateChannel d path) (settled lib) dev := rfl
  rw [act, openned_of ho, amDscAllocateChannel, hfind] at hr
  rcases settled_cases lib with ⟨hm, hl⟩ | ⟨hm, hl⟩
  · simp only [hm] at hr
    rw [hr]
    refine ⟨drv_done hl _ _ _ _, ho, balanced _ _ (settled lib).mode rfl ?_⟩
    rw [handle, if_neg hl]
    rfl
  · simp only [hm] at hr
    rw [hr]
    refine ⟨secure_done hl rfl _ _ _, ho, balanced _ _ (settled lib).mode rfl ?_⟩
    rw [handle, if_pos hl]
    rfl

theorem exists_usedChan {chan_id : Int} (h : (dscGetUsedChan dev chan_id).isOk = true) :
    ∃ i, dscGetUsedChan dev chan_id = .ok i ∧ (dev.channels i).used = true := by
  cases hchan : dscGetUsedChan dev chan_id with
  | error e =>
    rw [hchan] at h
    exact absurd h Bool.false_ne_true
  | ok i =>
    refine ⟨i, rfl, ?_⟩
    unfold dscGetUsedChan at hchan
    split at hchan
    · simp only at hchan
      split at hchan
      · rename_i hused
        exact Except.ok.inj hchan ▸ hused
      · cases hchan
    · cases hchan

theorem setKey_done (lib : Library) (d chan_id : Int) (type : BitVec 32) (key : List (BitVec 8))
    (ho : dev.openned = true) (hchan : (dscGetUsedChan dev chan_id).isOk = true) :
    let r := act lib (.setKey d chan_id type key) (settled lib) dev
    Done lib (.setKey d chan_id type key) r ∧ r.2.1 = dev ∧
      ∀ x, ∀ e ∈ r.2.2.events, e.op ≠ .alloc x ∧ e.op ≠ .free x := by
  obtain ⟨i, hi, -⟩ := exists_usedChan hchan
  intro r
  have hr : r = act lib (.setKey d chan_id type key) (settled lib) dev := rfl
  rw [act, openned_of ho, amDscSetKey, hi] at hr
  rcases settled_cases lib with ⟨hm, hl⟩ | ⟨hm, hl⟩
  · simp only [hm] at hr
    rw [hr]
    refine ⟨drv_done hl _ _ _ none, rfl, fun x e he => ?_⟩
    obtain rfl := List.mem_singleton.mp he
    exact ⟨Op.noConfusion, Op.noConfusion⟩
  · simp only [hm] at hr
    rw [hr]
    by_cases hkl : type &&& AM_DSC_KEY_FROM_KL ≠ 0
    · have hf : (Call.setKey d chan_id type key).functions = [.keyladderRun] := if_pos hkl
      rw [if_pos hkl]
      refine ⟨secure_done hl hf _ _ none, rfl, fun x e he => ?_⟩
      obtain rfl := List.mem_singleton.mp he
      exact ⟨Op.noConfusion, Op.noConfusion⟩
    · have hf : (Call.setKey d chan_id type key).functions = [.setKey] := if_neg hkl
      rw [if_neg hkl]
      refine ⟨secure_done hl hf _ _ none, rfl, fun x e he => ?_⟩
      obtain rfl := List.mem_singleton.mp he
      exact ⟨Op.noConfusion, Op.noConfusion⟩

theorem free_done (lib : Library) (d chan_id : Int) (ho : dev.openned = true)
    (hchan : (dscGetUsedChan dev chan_id).isOk = true) :
    let r := act lib (.freeChannel d chan_id) (settled lib) dev
    Done lib (.freeChannel d chan_id) r ∧ r.2.1.openned = true ∧ Balanced lib d dev r := by
  obtain ⟨i, hi, hused⟩ := exists_usedChan hchan
  have balanced : ∀ (out : Outcome) (m : WorkMode),
      out.events = [⟨m, .free (handle lib d i (dev.channels i))⟩] →
      Balanced lib d dev
        (settled lib, dev.setChan i { dev.channels i with used := false }, out) := by
    intro out m hevents
    refine balanced_setChan ho fun x => ?_
    have hzero : ({ dev.channels i with used := false } : Channel).counts lib d x i = 0 :=
      counts_of_unused rfl d x i
    rw [hevents, (frees_one x _ m).1, (frees_one x _ m).2, hzero]
    simp only [Channel.counts, hused, true_and]
    omega
  intro r
  have hr : r = act lib (.freeChannel d chan_id) (settled lib) dev := rfl
  rw [act, openned_of ho, amDscFreeChannel, hi] at hr
  rcases settled_cases lib with ⟨hm, hl⟩ | ⟨hm, hl⟩
  · simp only [hm, dscFreeChan, hused, not_true_eq_false, if_false] at hr
    rw [hr]
    refine ⟨⟨(if_pos (serves_of_not_opens hl _)).symm, fun e he => ?_⟩, ho,
      balanced _ (settled lib).mode ?_⟩
    · exact List.mem_singleton.mp he ▸ hm.symm
    · rw [handle, if_neg hl, hm]
  · simp only [hm] at hr
    rw [hr]
    refine ⟨secure_done hl rfl _ _ none, ho, balanced _ (settled lib).mode ?_⟩
    rw [handle, if_pos hl]
    rfl

theorem frees_append (x : Handle) (es es' : List Event) :
    frees x (es ++ es') = frees x es + frees x es' := List.countP_append

theorem allocs_append (x : Handle) (es es' : List Event) :
    allocs x (es ++ es') = allocs x es + allocs x es' := List.countP_append

/-- Events for each of the channels. -/
theorem frees_flatMap (x : Handle) (f : Fin DSC_CHANNEL_COUNT → List Event) :
    frees x ((List.finRange DSC_CHANNEL_COUNT).flatMap f) = ∑ i, frees x (f i) := by
  rw [Fin.sum_univ_def]
  exact List.countP_flatMap

theorem allocs_flatMap (x : Handle) (f : Fin DSC_CHANNEL_COUNT → List Event) :
    allocs x ((List.finRange DSC_CHANNEL_COUNT).flatMap f) = ∑ i, allocs x (f i) := by
  rw [Fin.sum_univ_def]
  exact List.countP_flatMap

/-- What `AM_DSC_Close` releases of a channel: in secure mode all, in use or not. -/
def Channel.released (lib : Library) (dev_no : Int) (x : Handle) (i : Fin DSC_CHANNEL_COUNT)
    (chan : Channel) : Nat :=
  if (lib.opens = true ∨ chan.used = true) ∧ handle lib dev_no i chan = x then 1 else 0

theorem close_done (lib : Library) (d : Int) (ho : dev.openned = true) :
    let r := act lib (.close d) (settled lib) dev
    Done lib (.close d) r ∧ r.2.1.openned = false ∧ ∀ x, allocs x r.2.2.events = 0 ∧
      frees x r.2.2.events = ∑ i, (dev.channels i).released lib d x i := by
  intro r
  have hr : r = act lib (.close d) (settled lib) dev := rfl
  rw [act, openned_of ho, amDscClose] at hr
  rcases settled_cases lib with ⟨hm, hl⟩ | ⟨hm, hl⟩
  · simp only [hm] at hr
    rw [hr]
    refine ⟨⟨(if_pos (serves_of_not_opens hl _)).symm, fun e he => ?_⟩, rfl, fun x => ?_⟩
    · rw [hm]
      rcases List.mem_append.mp he with he | he
      · obtain ⟨i, -, he⟩ := List.mem_flatMap.mp he
        unfold dscFreeChan at he
        split at he
        · exact absurd he List.not_mem_nil
        · exact List.mem_singleton.mp he ▸ hm
      · exact List.mem_singleton.mp he ▸ rfl
    · have hone : ∀ i, allocs x (dscFreeChan (settled lib) d i (dev.channels i)).2 = 0 ∧
          frees x (dscFreeChan (settled lib) d i (dev.channels i)).2 =
            (dev.channels i).released lib d x i := fun i => by
        unfold dscFreeChan Channel.released handle
        rw [if_neg hl]
        by_cases hused : (dev.channels i).used = true
        · rw [if_neg (not_not.mpr hused), hused]
          simp only [frees_one, or_true, true_and, and_self]
        · rw [if_pos hused, if_neg fun h => h.1.elim hl hused]
          exact ⟨rfl, rfl⟩
      rw [allocs_append, frees_append, allocs_flatMap, frees_flatMap,
        Finset.sum_eq_zero fun i _ => (hone i).1, Finset.sum_congr rfl fun i _ => (hone i).2]
      exact ⟨rfl, rfl⟩
  · simp only [hm] at hr
    rw [hr]
    refine ⟨⟨?_, fun e he => ?_⟩, rfl, fun x => ?_⟩
    · have hserves := serves_iff_loaded hl (.close d)
      simp only [Call.functions, List.forall_mem_cons, List.not_mem_nil, false_imp_iff,
        implies_true, and_true] at hserves
      simp only [Globals.secure, ← ite_and]
      exact if_congr hserves.symm rfl rfl
    · rw [hm]
      rcases List.mem_append.mp he with he | he
      · obtain ⟨i, -, rfl⟩ := List.mem_map.mp he
        rfl
      · exact List.mem_singleton.mp he ▸ hm
    · rw [allocs_append, frees_append, List.map_eq_flatMap, allocs_flatMap, frees_flatMap,
        Finset.sum_eq_zero fun i _ => (frees_one x _ _).1,
        Finset.sum_congr rfl fun i _ => (frees_one x _ _).2]
      refine ⟨rfl, ?_⟩
      show (∑ i, _) + 0 = _
      rw [Nat.add_zero]
      refine Finset.sum_congr rfl fun i _ => ?_
      rw [Channel.released, handle, if_pos hl]
      simp only [hl, true_or, true_and]

end Acts

end VendorAmlogic.Dsc
