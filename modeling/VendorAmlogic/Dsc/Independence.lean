import VendorAmlogic.Dsc.Calls

/-!
# Runs over several descramblers

The run over all devices beside the run of the calls on one of them: as long as
no call that needs the work mode comes after a close, that device is the same in
both.
-/

namespace VendorAmlogic.Dsc

open VendorAmlogic.Lib

section Acts

variable {lib : Library} {num : Nat} {c : Call} {g : Globals} {dev : Device} {s t : State}

/-! ## Calls at the work mode that is found -/

theorem act_settled (hd : Dispatches dev c)
    (hg : g = settled lib ∨ g = initial ∧ dev.openned = false) :
    act lib c g dev = act lib c (settled lib) dev := by
  rcases hg with rfl | ⟨rfl, ho⟩
  · rfl
  · cases c with
    | opens d =>
      simp only [act, amDscOpen, getWorkMode_settled]
      rfl
    | setChannelPID d chan_id pid => exact hd.elim
    | allocateChannel d path => exact absurd (ho.symm.trans hd.1) Bool.false_ne_true
    | setKey d chan_id type key => exact absurd (ho.symm.trans hd.1) Bool.false_ne_true
    | freeChannel d chan_id => exact absurd (ho.symm.trans hd.1) Bool.false_ne_true
    | close d => exact absurd (ho.symm.trans hd) Bool.false_ne_true

theorem act_done (lib : Library) (hd : Dispatches dev c) :
    Done lib c (act lib c (settled lib) dev) := by
  cases c with
  | opens d => exact (open_done lib d hd).1
  | allocateChannel d path => exact (alloc_done lib d path hd.1 hd.2).1
  | setChannelPID d chan_id pid => exact hd.elim
  | setKey d chan_id type key => exact (setKey_done lib d chan_id type key hd.1 hd.2).1
  | freeChannel d chan_id => exact (free_done lib d chan_id hd.1 hd.2).1
  | close d => exact (close_done lib d hd).1

/-- A call but a close leaves a device that is not open only where it failed to open it. -/
theorem act_free (hd : Dispatches dev c) (hc : ∀ d, c ≠ .close d)
    (hfree : dev.openned = false → ∀ i, (dev.channels i).used = false)
    (ho : (act lib c (settled lib) dev).2.1.openned = false) :
    ∀ i, ((act lib c (settled lib) dev).2.1.channels i).used = false := by
  cases c with
  | opens d =>
    rw [(open_done lib d hd).2.1]
    exact hfree hd
  | allocateChannel d path =>
    exact absurd (ho.symm.trans (alloc_done lib d path hd.1 hd.2).2.1) Bool.false_ne_true
  | setChannelPID d chan_id pid => exact hd.elim
  | setKey d chan_id type key =>
    rw [(setKey_done lib d chan_id type key hd.1 hd.2).2.1] at ho
    exact absurd (ho.symm.trans hd.1) Bool.false_ne_true
  | freeChannel d chan_id =>
    exact absurd (ho.symm.trans (free_done lib d chan_id hd.1 hd.2).2.1) Bool.false_ne_true
  | close d => exact absurd rfl (hc d)

theorem close_mode (d : Int) (ho : dev.openned = true) :
    (act lib (.close d) g dev).1.mode = .unset := by
  rw [act, openned_of ho, amDscClose]
  split <;> rfl

theorem act_balanced (hd : Dispatches dev c)
    (hopens : ∀ d, c = .opens d → ∀ i, (dev.channels i).used = false)
    (hclose : ∀ d, c = .close d → lib.opens = true → ∀ i, (dev.channels i).used = true) :
    Balanced lib c.dev_no dev (act lib c (settled lib) dev) := by
  cases c with
  | opens d =>
    obtain ⟨-, hdev, he⟩ := open_done lib d hd
    intro x
    obtain ⟨ha, hf⟩ := count_still x (he x)
    have hfree := hopens d rfl
    have hfree' : ∀ i, ((act lib (.opens d) (settled lib) dev).2.1.channels i).used = false := by
      rw [hdev]
      exact hfree
    rw [ha, hf, inUse_of_free lib hfree]
    show 0 + 0 = 0 + Device.inUse lib d x _
    rw [inUse_of_free lib hfree']
  | allocateChannel d path => exact (alloc_done lib d path hd.1 hd.2).2.2
  | setChannelPID d chan_id pid => exact hd.elim
  | setKey d chan_id type key =>
    obtain ⟨-, hdev, he⟩ := setKey_done lib d chan_id type key hd.1 hd.2
    exact balanced_of_same (by rw [hdev]; exact .refl dev) he d
  | freeChannel d chan_id => exact (free_done lib d chan_id hd.1 hd.2).2.2
  | close d =>
    obtain ⟨-, ho, hevents⟩ := close_done lib d hd
    intro x
    obtain ⟨ha, hf⟩ := hevents x
    simp only [Call.dev_no]
    rw [ha, hf, inUse_of_not ho, inUse_of_openned hd, Nat.zero_add, Nat.add_zero]
    refine Finset.sum_congr rfl fun i _ => ?_
    unfold Channel.counts Channel.released
    by_cases hl : lib.opens = true
    · simp only [hclose d rfl hl i, or_true]
    · simp only [hl, Bool.false_eq_true, false_or]

/-- A close in secure mode with a channel that is not in use releases too much. -/
theorem close_not_balanced (hl : lib.opens = true) (d : Int) (ho : dev.openned = true)
    (h : ∃ i, (dev.channels i).used ≠ true) :
    ¬ Balanced lib d dev (act lib (.close d) (settled lib) dev) := by
  obtain ⟨i, hi⟩ := h
  intro hb
  obtain ⟨-, hclosed, hevents⟩ := close_done lib d ho
  have hx := hb (handle lib d i (dev.channels i))
  obtain ⟨ha, hf⟩ := hevents (handle lib d i (dev.channels i))
  rw [ha, hf, inUse_of_not hclosed, inUse_of_openned ho, Nat.zero_add, Nat.add_zero] at hx
  refine absurd hx (Nat.ne_of_lt (Finset.sum_lt_sum (fun j _ => ?_) ⟨i, Finset.mem_univ i, ?_⟩))
  · unfold Channel.counts Channel.released
    split
    · rename_i hj
      rw [if_pos ⟨.inr hj.1, hj.2⟩]
    · exact Nat.zero_le _
  · rw [Channel.counts, Channel.released, if_neg fun h => hi h.1, if_pos ⟨.inl hl, rfl⟩]
    exact Nat.one_pos

/-! ## Steps -/

def State.put (s : State) (d : Int) (r : Globals × Device × Outcome) : State × Outcome :=
  (⟨r.1, Function.update s.devices d r.2.1⟩, r.2.2)

/-- A call is turned away in every state, or does in each what it does to its device. -/
theorem step_cases (lib : Library) (num : Nat) (c : Call) :
    (∃ ret, ∀ s, step lib num s c = (s, .of ret) ∧ ¬ Reaches num s c) ∨
      ∀ s, step lib num s c = s.put c.dev_no (act lib c s.globals (s.devices c.dev_no)) ∧
        (Reaches num s c ↔ Dispatches (s.devices c.dev_no) c) := by
  by_cases hr : c.Refused
  · exact .inl ⟨AM_FAILURE, fun s => ⟨if_pos hr, fun h => h.1 hr⟩⟩
  by_cases hv : c.dev_no < 0 ∨ c.dev_no ≥ num
  · refine .inl ⟨AM_DSC_ERR_INVALID_DEV_NO, fun s => ⟨?_, fun h => h.2.1 hv⟩⟩
    rw [step, if_neg hr, State.onDev, if_pos hv]
  · refine .inr fun s => ⟨?_, fun h => h.2.2, fun h => ⟨hr, hv, h⟩⟩
    rw [step, if_neg hr, State.onDev, if_neg hv]
    rfl

@[simp] theorem put_self (s : State) (d : Int) (r : Globals × Device × Outcome) :
    (s.put d r).1.devices d = r.2.1 := Function.update_self _ _ _

theorem put_of_ne (s : State) {d d' : Int} (r : Globals × Device × Outcome) (h : d' ≠ d) :
    (s.put d r).1.devices d' = s.devices d' := Function.update_of_ne h _ _

theorem step_devices_of_ne {d : Int} (h : c.dev_no ≠ d) :
    (step lib num s c).1.devices d = s.devices d := by
  rcases step_cases lib num c with ⟨ret, hret⟩ | hact
  · rw [(hret s).1]
  · rw [(hact s).1, put_of_ne s _ (Ne.symm h)]

theorem step_unset (lib : Library) (num : Nat) (c : Call) (h : s.globals.mode = .unset) :
    (step lib num s c).1.globals.mode = .unset := by
  rcases step_cases lib num c with ⟨ret, hret⟩ | hact
  · rw [(hret s).1, h]
  · rw [(hact s).1]
    exact act_unset h

/-- The work mode is not asked for yet, known, or lost; till it is lost a device that is not open
has all its channels free. -/
structure StateOk (lib : Library) (s : State) : Prop where
  phase : (s.globals = initial ∧ ∀ d, (s.devices d).openned = false) ∨ s.globals = settled lib ∨
    s.globals.mode = .unset
  free : s.globals.mode ≠ .unset → ∀ d, (s.devices d).openned = false →
    ∀ i, ((s.devices d).channels i).used = false

theorem StateOk.settled (h : StateOk lib s) (hm : s.globals.mode ≠ .unset) (d : Int) :
    s.globals = Dsc.settled lib ∨ s.globals = initial ∧ (s.devices d).openned = false := by
  rcases h.phase with ⟨h1, h2⟩ | h1 | h1
  · exact .inr ⟨h1, h2 d⟩
  · exact .inl h1
  · exact absurd h1 hm

theorem stateOk_start (lib : Library) : StateOk lib start :=
  ⟨.inl ⟨rfl, fun _ => rfl⟩, fun _ _ _ _ => rfl⟩

theorem still_globals (h : StateOk lib s) (hd : ¬ Dispatches (s.devices c.dev_no) c) :
    (act lib c s.globals (s.devices c.dev_no)).1 = s.globals := by
  rcases act_globals lib c s.globals (s.devices c.dev_no) with hg | ⟨⟨d, rfl⟩, hg⟩ | ⟨hdis, -⟩
  · exact hg
  · rw [hg]
    have ho : (s.devices d).openned = true := Bool.not_eq_false _ ▸ hd
    refine getWorkMode_of_ne ?_
    rcases h.phase with ⟨-, hclosed⟩ | hs | hs
    · exact absurd ((hclosed d).symm.trans ho) Bool.false_ne_true
    · exact hs ▸ (settled_ne lib).1
    · exact hs ▸ WorkMode.noConfusion
  · exact absurd hdis hd

theorem stateOk_step (h : StateOk lib s) : StateOk lib (step lib num s c).1 := by
  rcases step_cases lib num c with ⟨ret, hret⟩ | hact
  · rw [(hret s).1]
    exact h
  by_cases hm : s.globals.mode = .unset
  · have hm' := step_unset lib num c hm
    exact ⟨.inr (.inr hm'), fun hne => absurd hm' hne⟩
  rw [(hact s).1]
  by_cases hd : Dispatches (s.devices c.dev_no) c
  · rw [act_settled hd (h.settled hm _)]
    constructor
    · rcases act_globals lib c (settled lib) (s.devices c.dev_no) with hg | ⟨-, hg⟩ | ⟨-, hg, -⟩
      · exact .inr (.inl hg)
      · exact .inr (.inl (hg.trans (getWorkMode_settled lib)))
      · exact .inr (.inr hg)
    · intro hne d ho
      have hc : ∀ d, c ≠ .close d := by
        rintro d rfl
        exact hne (close_mode d hd)
      by_cases hdev : d = c.dev_no
      · rw [hdev, put_self] at ho ⊢
        exact act_free hd hc (h.free hm _) ho
      · rw [put_of_ne s _ hdev] at ho ⊢
        exact h.free hm d ho
  · obtain ⟨dev', ret, hsame, hstill⟩ := act_still lib hd
    have hg := still_globals h hd
    have hdevice := (hstill s.globals).device
    have same : ∀ d, (s.devices d).Same ((s.put c.dev_no _).1.devices d) := fun d => by
      by_cases hdev : d = c.dev_no
      · rw [hdev, put_self, hdevice]
        exact hsame
      · rw [put_of_ne s _ hdev]
        exact .refl _
    constructor
    · rcases h.phase with ⟨hi, hclosed⟩ | hi
      · exact .inl ⟨hg.trans hi, fun d => (same d).openned_eq.trans (hclosed d)⟩
      · exact .inr (hi.imp hg.trans fun hi => (congrArg Globals.mode hg).trans hi)
    · intro hne d ho i
      rw [(same d).used_eq]
      exact h.free hm d ((same d).openned_eq.symm.trans ho) i

/-! ## A device in two runs -/

/-- The device is the same in both; where it is by itself, the work mode is lost only if it is lost
among the others too and the device has been closed. -/
structure Alike (d : Int) (s t : State) : Prop where
  device_eq : t.devices d = s.devices d
  unset : t.globals.mode = .unset → s.globals.mode = .unset ∧ (s.devices d).openned = false

theorem Alike.step_other {d : Int} (h : Alike d s t) (hc : c.dev_no ≠ d) :
    Alike d (step lib num s c).1 t := by
  have hdev : (step lib num s c).1.devices d = s.devices d := step_devices_of_ne hc
  refine ⟨h.device_eq.trans hdev.symm, fun ht => ⟨step_unset lib num c (h.unset ht).1, ?_⟩⟩
  rw [hdev]
  exact (h.unset ht).2

/-- **One call on the device, among the others and by itself.** -/
theorem Alike.step (hs : StateOk lib s) (ht : StateOk lib t) (h : Alike c.dev_no s t)
    (hm : Reaches num s c → s.globals.mode ≠ .unset) :
    Alike c.dev_no (step lib num s c).1 (step lib num t c).1 ∧
      (Dsc.step lib num s c).2.ret = (Dsc.step lib num t c).2.ret := by
  rcases step_cases lib num c with ⟨ret, hret⟩ | hact
  · rw [(hret s).1, (hret t).1]
    exact ⟨h, rfl⟩
  rw [(hact s).1, (hact t).1, h.device_eq]
  by_cases hd : Dispatches (s.devices c.dev_no) c
  · have hms : s.globals.mode ≠ .unset := hm ((hact s).2.mpr hd)
    have hmt : t.globals.mode ≠ .unset := fun hu => hms (h.unset hu).1
    have hts := ht.settled hmt c.dev_no
    rw [h.device_eq] at hts
    rw [act_settled hd (hs.settled hms _), act_settled hd hts]
    refine ⟨⟨by rw [put_self, put_self], fun hu => ⟨hu, ?_⟩⟩, rfl⟩
    rw [put_self]
    rcases act_globals lib c (settled lib) (s.devices c.dev_no) with hg | ⟨-, hg⟩ | ⟨-, -, ho⟩
    · exact absurd (hg ▸ hu) (settled_ne lib).2
    · exact absurd ((hg.trans (getWorkMode_settled lib)) ▸ hu) (settled_ne lib).2
    · exact ho
  · obtain ⟨dev', ret, hsame, hstill⟩ := act_still lib hd
    have hgs := still_globals hs hd
    have hgt := still_globals ht (c := c) (by rwa [h.device_eq])
    rw [h.device_eq] at hgt
    refine ⟨⟨?_, fun hu => ?_⟩, (hstill _).ret.trans (hstill _).ret.symm⟩
    · rw [put_self, put_self, (hstill _).device, (hstill _).device]
    · rw [put_self, (hstill _).device, hsame.openned_eq]
      show (act lib c s.globals (s.devices c.dev_no)).1.mode = _ ∧ _
      rw [hgs]
      exact h.unset (hgt ▸ hu)

end Acts

/-! ## Runs -/

section Runs

variable {lib : Library} {num : Nat} {c : Call} {h : History}

theorem after_concat (lib : Library) (num : Nat) (calls : List Call) (c : Call) :
    after lib num (calls ++ [c]) = (step lib num (after lib num calls) c).1 := by
  rw [after, List.foldl_append]
  rfl

theorem stateOk_after (lib : Library) (num : Nat) (calls : List Call) :
    StateOk lib (after lib num calls) := by
  induction calls using List.reverseRecOn with
  | nil => exact stateOk_start lib
  | append_singleton calls c ih =>
    rw [after_concat]
    exact stateOk_step ih

theorem onDevice_concat (d : Int) (calls : List Call) (c : Call) :
    onDevice d (calls ++ [c]) =
      if c.dev_no = d then onDevice d calls ++ [c] else onDevice d calls := by
  by_cases h : c.dev_no = d
  · simp [onDevice, h]
  · simp [onDevice, h]

/-- What holds before each step. -/
structure Inv (lib : Library) (num : Nat) (h : History) : Prop where
  ok : StateOk lib h.state
  alike : ∀ d, Alike d h.state (after lib num (onDevice d h.calls))
  books : ∀ x, allocs x h.trace = frees x h.trace + h.state.inUse lib x

theorem inv_begin (lib : Library) (num : Nat) : Inv lib num begin :=
  ⟨stateOk_start lib, fun _ => ⟨rfl, fun h => WorkMode.noConfusion h⟩, fun _ => rfl⟩

theorem alike_hstep (hi : Inv lib num h)
    (hm : Reaches num h.state c → h.state.globals.mode ≠ .unset) (d : Int) :
    Alike d (hstep lib num h c).1.state
      (after lib num (onDevice d (hstep lib num h c).1.calls)) := by
  show Alike d (step lib num h.state c).1 (after lib num (onDevice d (h.calls ++ [c])))
  rw [onDevice_concat]
  by_cases hd : c.dev_no = d
  · subst hd
    rw [if_pos rfl, after_concat]
    exact (Alike.step hi.ok (stateOk_after lib num _) (hi.alike _) hm).1
  · rw [if_neg hd]
    exact (hi.alike d).step_other hd

/-- A handle of another device is not touched. -/
theorem inUse_other {d : Int} {x : Handle} (hx : x.dev_no ≠ d) (dev : Device) :
    dev.inUse lib d x = 0 := by
  have hzero : ∀ i, (dev.channels i).counts lib d x i = 0 := fun i => by
    refine if_neg fun hc => hx ?_
    rw [← hc.2, handle]
    split <;> rfl
  unfold Device.inUse
  rw [Finset.sum_eq_zero fun i _ => hzero i, ite_self]

/-- The books after a step are right if those of the step are. -/
theorem released_iff (hi : Inv lib num h) {r : Globals × Device × Outcome}
    (heq : step lib num h.state c = h.state.put c.dev_no r) :
    (∀ x, allocs x (hstep lib num h c).1.trace =
      frees x (hstep lib num h c).1.trace + (hstep lib num h c).1.state.inUse lib x) ↔
      Balanced lib c.dev_no (h.state.devices c.dev_no) r := by
  have htrace : (hstep lib num h c).1.trace = h.trace ++ r.2.2.events := by
    show h.trace ++ (step lib num h.state c).2.events = _
    rw [heq]
    rfl
  have hstate : (hstep lib num h c).1.state = (h.state.put c.dev_no r).1 := by
    show (step lib num h.state c).1 = _
    rw [heq]
  rw [htrace, hstate]
  refine forall_congr' fun x => ?_
  have hbooks := hi.books x
  rw [allocs_append, frees_append, hbooks, State.inUse, State.inUse]
  by_cases hx : x.dev_no = c.dev_no
  · rw [hx, put_self]
    omega
  · rw [put_of_ne _ _ hx, inUse_other hx, inUse_other hx]
    omega

theorem not_reaches_events (lib : Library) (hr : ¬ Reaches num h.state c) :
    ∀ e ∈ (hstep lib num h c).2.events, e.mode = .normal := by
  show ∀ e ∈ (step lib num h.state c).2.events, e.mode = .normal
  rcases step_cases lib num c with ⟨ret, hret⟩ | hact
  · rw [(hret h.state).1]
    exact fun e he => absurd he List.not_mem_nil
  · rw [(hact h.state).1]
    obtain ⟨dev', ret, -, hstill⟩ := act_still lib fun hd => hr ((hact h.state).2.mpr hd)
    exact fun e he => ((hstill _).events e he).1

theorem books_hstep (hi : Inv lib num h) (hok : Harmless lib num h c) :
    ∀ x, allocs x (hstep lib num h c).1.trace =
      frees x (hstep lib num h c).1.trace + (hstep lib num h c).1.state.inUse lib x := by
  rcases step_cases lib num c with ⟨ret, hret⟩ | hact
  · have hstate : (hstep lib num h c).1.state = h.state := congrArg Prod.fst (hret h.state).1
    have htrace : (hstep lib num h c).1.trace = h.trace := by
      show h.trace ++ (step lib num h.state c).2.events = _
      rw [(hret h.state).1]
      exact List.append_nil _
    rw [hstate, htrace]
    exact hi.books
  rw [released_iff hi (hact h.state).1]
  by_cases hd : Dispatches (h.state.devices c.dev_no) c
  · have hr := (hact h.state).2.mpr hd
    have hm := hok.mode hr
    have hg := hi.ok.settled hm c.dev_no
    rw [act_settled hd hg]
    refine act_balanced hd ?_ ?_
    · rintro d rfl
      exact hi.ok.free hm d hd
    · rintro d rfl hl
      refine hok.full rfl hr ?_
      rcases hg with hg | ⟨-, ho⟩
      · rw [hg]
        exact (settled_cases lib).elim (fun hn => absurd hl hn.2) And.left
      · exact absurd (ho.symm.trans hd) Bool.false_ne_true
  · obtain ⟨dev', ret, hsame, hstill⟩ := act_still lib hd
    refine balanced_of_same ?_ (fun x e he => ((hstill _).events e he).2 x) _
    rw [(hstill _).device]
    exact hsame

theorem Inv.hstep (hi : Inv lib num h) (hok : Harmless lib num h c) :
    Inv lib num (hstep lib num h c).1 :=
  ⟨stateOk_step hi.ok, alike_hstep hi hok.mode, books_hstep hi hok⟩

/-- What a call that gets to the work mode does before any device has been closed. -/
theorem reaches_done (hi : Inv lib num h) (hr : Reaches num h.state c)
    (hm : h.state.globals.mode ≠ .unset) :
    step lib num h.state c =
      h.state.put c.dev_no (act lib c (settled lib) (h.state.devices c.dev_no)) := by
  rcases step_cases lib num c with ⟨ret, hret⟩ | hact
  · exact absurd hr (hret h.state).2
  · rw [(hact h.state).1, act_settled ((hact h.state).2.mp hr) (hi.ok.settled hm c.dev_no)]

theorem Harmless.right (hi : Inv lib num h) (hok : Harmless lib num h c) : Right lib num h c := by
  refine ⟨?_, fun _ => ?_, ?_, ?_, books_hstep hi hok⟩
  · rcases step_cases lib num c with ⟨ret, hret⟩ | hact
    · show (step lib num h.state c).2.ret ≠ none
      rw [(hret h.state).1]
      exact Option.some_ne_none _
    · by_cases hd : Dispatches (h.state.devices c.dev_no) c
      · have hr := (hact h.state).2.mpr hd
        show (step lib num h.state c).2.ret ≠ none
        rw [reaches_done hi hr (hok.mode hr)]
        refine ne_of_eq_of_ne ((act_done lib hd).ret.trans (if_pos (hok.serves hr))) ?_
        exact Option.some_ne_none _
      · obtain ⟨dev', ret, -, hstill⟩ := act_still lib hd
        show (step lib num h.state c).2.ret ≠ none
        rw [(hact h.state).1]
        exact ne_of_eq_of_ne (hstill _).ret (Option.some_ne_none _)
  · exact (Alike.step hi.ok (stateOk_after lib num _) (hi.alike _) hok.mode).2
  · rintro d rfl hv ho
    have hr : Reaches num h.state (.opens d) := ⟨id, by
      simp only [Call.dev_no]
      omega, ho⟩
    have hm := hok.mode hr
    obtain ⟨hdone, hdev, -⟩ := open_done lib d ho
    show (step lib num h.state (.opens d)).2.ret = _ ∧
      ((step lib num h.state (.opens d)).1.devices d).openned = true ∧
        ∀ i, (((step lib num h.state (.opens d)).1.devices d).channels i).used = false
    rw [reaches_done hi hr hm]
    refine ⟨hdone.ret.trans (if_pos (hok.serves hr)), ?_⟩
    simp only [Call.dev_no, put_self, hdev, hok.serves hr, decide_true, true_and]
    exact hi.ok.free hm d ho
  · intro e he
    by_cases hr : Reaches num h.state c
    · change e ∈ (step lib num h.state c).2.events at he
      rw [reaches_done hi hr (hok.mode hr)] at he
      have := (act_done lib hr.2.2).modes e he
      rcases settled_cases lib with ⟨hm, -⟩ | ⟨hm, -⟩
      · exact .inl (this.trans hm)
      · exact .inr (this.trans hm)
    · exact .inl (not_reaches_events lib hr e he)

/-- Without the work mode a call fails, or opens what it should not. -/
theorem unset_act (lib : Library) {g : Globals} {dev : Device} (hd : Dispatches dev c)
    (hm : g.mode = .unset) :
    (act lib c g dev).2.2.ret = some AM_FAILURE ∧ dev.openned = true ∨
      ∃ e ∈ (act lib c g dev).2.2.events, e.mode = .unset := by
  cases c with
  | opens d =>
    have ho : dev.openned = false := hd
    have hne : g.mode ≠ .max := by
      rw [hm]
      exact WorkMode.noConfusion
    refine .inr ⟨⟨.unset, .secOpen d⟩, ?_, rfl⟩
    simp only [act, amDscOpen, getWorkMode_of_ne hne, ho, Bool.false_eq_true, if_false]
    rw [if_neg (by rw [hm]; exact WorkMode.noConfusion), Globals.secure, hm]
    exact List.mem_cons_self
  | allocateChannel d path =>
    obtain ⟨i, hfind, -⟩ := exists_free hd.2
    rw [act, openned_of hd.1, amDscAllocateChannel, hfind]
    simp only [hm]
    exact .inl ⟨rfl, hd.1⟩
  | setChannelPID d chan_id pid => exact hd.elim
  | setKey d chan_id type key =>
    obtain ⟨i, hi, -⟩ := exists_usedChan hd.2
    rw [act, openned_of hd.1, amDscSetKey, hi]
    simp only [hm]
    exact .inl ⟨rfl, hd.1⟩
  | freeChannel d chan_id =>
    obtain ⟨i, hi, -⟩ := exists_usedChan hd.2
    rw [act, openned_of hd.1, amDscFreeChannel, hi]
    simp only [hm]
    exact .inl ⟨rfl, hd.1⟩
  | close d =>
    rw [act, openned_of hd, amDscClose]
    simp only [hm]
    exact .inl ⟨rfl, hd⟩

theorem Right.harmless (hi : Inv lib num h) (hr : Right lib num h c) : Harmless lib num h c := by
  have hmode : Reaches num h.state c → h.state.globals.mode ≠ .unset := by
    intro hreach hm
    rcases step_cases lib num c with ⟨ret, hret⟩ | hact
    · exact (hret h.state).2 hreach
    have hd := (hact h.state).2.mp hreach
    rcases unset_act lib hd hm with ⟨hfail, ho⟩ | ⟨e, he, hunset⟩
    · -- by itself the device has its work mode still
      have halone := hr.alone ho
      have hlike := hi.alike c.dev_no
      have hmt : (after lib num (onDevice c.dev_no h.calls)).globals.mode ≠ .unset := fun hu =>
        Bool.false_ne_true ((hlike.unset hu).2.symm.trans ho)
      have hts := (stateOk_after lib num (onDevice c.dev_no h.calls)).settled hmt c.dev_no
      rw [hlike.device_eq] at hts
      have hret : (hstep lib num h c).2.ret = some AM_FAILURE := by
        show (step lib num h.state c).2.ret = _
        rw [(hact h.state).1]
        exact hfail
      rw [hret, (hact _).1, hlike.device_eq, act_settled hd hts] at halone
      have hnow := halone.trans (act_done lib hd).ret
      by_cases hs : lib.Serves c
      · exact absurd (hnow.trans (if_pos hs)) (by decide)
      · exact absurd (hnow.trans (if_neg hs)) (by decide)
    · have hmem : e ∈ (hstep lib num h c).2.events := by
        show e ∈ (step lib num h.state c).2.events
        rw [(hact h.state).1]
        exact he
      rcases hr.modes e hmem with hm' | hm'
      · exact WorkMode.noConfusion (hunset.symm.trans hm')
      · exact WorkMode.noConfusion (hunset.symm.trans hm')
  refine ⟨hmode, fun hreach => ?_, fun hclose hreach hsec => ?_⟩
  · by_contra hs
    refine hr.returns ?_
    show (step lib num h.state c).2.ret = none
    rw [reaches_done hi hreach (hmode hreach)]
    exact (act_done lib hreach.2.2).ret.trans (if_neg hs)
  cases c with
  | close d =>
    rcases step_cases lib num (.close d) with ⟨ret, hret⟩ | hact
    · exact absurd hreach (hret h.state).2
    have hd : Dispatches (h.state.devices d) (.close d) := (hact h.state).2.mp hreach
    have hg := hi.ok.settled (hmode hreach) d
    have hbooks : Balanced lib d (h.state.devices d)
        (act lib (.close d) h.state.globals (h.state.devices d)) :=
      (released_iff hi (hact h.state).1).mp hr.released
    rw [act_settled hd hg] at hbooks
    by_contra hfull
    rw [not_forall] at hfull
    refine close_not_balanced ?_ d hd hfull hbooks
    rcases hg with hg | ⟨-, hclosed⟩
    · rcases settled_cases lib with ⟨hm, -⟩ | ⟨-, hl⟩
      · rw [hg, hm] at hsec
        exact WorkMode.noConfusion hsec
      · exact hl
    · exact absurd (hclosed.symm.trans hd) Bool.false_ne_true
  | _ => exact absurd hclose Bool.false_ne_true

/-- **Devices over a run**: every call is right just when no call that needs the work mode comes
after a close or to a function that the library lacks, and a device that is closed in secure mode
has all its channels in use. -/
theorem descramblers_right_iff (lib : Library) (num : Nat) (calls : List Call) :
    Each (Right lib num) (hstep lib num) begin calls ↔
      Each (Harmless lib num) (hstep lib num) begin calls := by
  have hsteps : ∀ h c, Inv lib num h →
      (Right lib num h c ↔ Harmless lib num h c) ∧
        (Harmless lib num h c → Inv lib num (hstep lib num h c).1) := fun _ _ hi =>
    ⟨⟨Right.harmless hi, Harmless.right hi⟩, Inv.hstep hi⟩
  exact each_iff hsteps (inv_begin lib num)

/-- Two devices in normal mode, one of them closed at the end. -/
example : Each (Harmless .missing 2) (hstep .missing 2) begin
    [.opens 0, .opens 1, .allocateChannel 0 0, .allocateChannel 1 0, .setChannelPID 0 0 0x100,
      .setKey 0 0 1 [], .freeChannel 0 0, .opens 1, .close 1] := by decide

/-- A device is opened, closed and opened. -/
theorem devices_not_right_reopened :
    ¬ Each (Right .missing 1) (hstep .missing 1) begin [.opens 0, .close 0, .opens 0] := by
  rintro ⟨-, -, hr, -⟩
  exact absurd (hr.reopens 0 rfl (by decide) rfl).1 (by decide)

end Runs

end VendorAmlogic.Dsc
