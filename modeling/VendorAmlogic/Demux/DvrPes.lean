import VendorAmlogic.Lib.Run
import VendorAmlogic.Demux.DvrLifecycle

/-!
# PES data in the DVR demultiplexer

`parse_pes` looks for its filter at `ch->filters`. `dvr_find_channel` sets that
link to `NULL` in a new channel, and nothing ever sets it to a filter: the first
payload on the PID of an enabled PES filter follows it.
-/

namespace VendorAmlogic.Demux

open VendorAmlogic.Lib

/-! ## What should happen -/

/-- The PID and the payload that `parse_ts_packet` takes from a packet. -/
def carriedBy (buf : List Byte) : Option (Nat × List Byte) :=
  let p := buf.drop ((buf.findIdx? (· == 0x47)).getD buf.length)
  if 188 ≤ p.length ∧ tsPid p ≠ 0x1FFF ∧ p.getD 3 0 &&& 0xC0 = 0 ∧ p.getD 1 0 &&& 0x80 = 0 ∧
      p.getD 3 0 &&& 0x10 ≠ 0 ∧ tsPayload p ≠ [] then some (tsPid p, tsPayload p)
  else none

/-- Filter `a` is enabled and set as a PES filter for `pid`. -/
def Dev.ServesPes (d : Dev) (a : Fin 32) (pid : Nat) : Prop :=
  (d.filters a).enable = true ∧ ∃ g, (d.filters a).drvData = some g ∧
    (d.dvrFilters g).secFilter = false ∧ (d.dvrFilters g).pid = pid

instance (d : Dev) (a : Fin 32) (pid : Nat) : Decidable (d.ServesPes a pid) :=
  inferInstanceAs (Decidable (_ ∧ ∃ _, _))

/-- The filter whose callback `parse_pes` calls, `ch->filters->dmx_filter`. -/
def Dev.pesTarget (d : Dev) (ch : Fin 32) : Option (Fin 32) :=
  (d.dvrChannels ch).filters.bind fun g => (d.dvrFilters g).dmxFilter

/-- The calls of `data_cb` that `parse_pes` makes for a packet, with their data; `none` where it
follows `NULL`. -/
def pesCalls (s : St) (buf : List Byte) : Option (List (Fin 32 × List Byte)) :=
  match carriedBy buf with
  | none => some []
  | some (pid, payload) =>
    match findPid s.dev pid with
    | none => some []
    | some ch =>
      if (s.chan ch).isSec then some [] else (s.dev.pesTarget ch).map fun a => [(a, payload)]

/-- A payload for an enabled PES filter goes to its callback once, and the link that `parse_pes`
follows is that of a used filter on the channel. -/
structure PesSafe (s : St) (buf : List Byte) : Prop where
  delivered : ∀ a pid payload, carriedBy buf = some (pid, payload) → s.dev.ServesPes a pid →
    ∃ calls, pesCalls s buf = some calls ∧ calls.count (a, payload) = 1
  linked : ∀ ch pid payload, carriedBy buf = some (pid, payload) → findPid s.dev pid = some ch →
    (s.chan ch).isSec = false → ∃ g, (s.chan ch).filters = some g ∧
      (s.dev.dvrFilters g).used = true ∧ (s.dev.dvrFilters g).chan = some ch

/-- No payload comes on the PID of an enabled PES filter. -/
def NoPes (s : St) (buf : List Byte) : Prop :=
  ∀ a pid payload, carriedBy buf = some (pid, payload) → ¬ s.dev.ServesPes a pid

/-! ## What calls do to the channels -/

/-- No call writes to the buffer of a channel, or sets its link. -/
structure DvrChannel.Kept (c c' : DvrChannel) : Prop where
  buf : c'.buf = c.buf
  size : c'.size = c.size
  filters : c.filters = none → c'.filters = none

/-- The channels of two devices. -/
def Kept (d d' : Dev) : Prop := ∀ ch, (d.dvrChannels ch).Kept (d'.dvrChannels ch)

section
variable {d d' d'' : Dev} {fid ch : Fin 32} {ret : Int}

theorem kept_of_chans (h : d'.dvrChannels = d.dvrChannels) : Kept d d' := fun c => by
  rw [h]
  exact ⟨rfl, rfl, id⟩

theorem Kept.trans (h : Kept d d') (h' : Kept d' d'') : Kept d d'' := fun c =>
  ⟨(h' c).buf.trans (h c).buf, (h' c).size.trans (h c).size, fun hf => (h' c).filters ((h c).filters hf)⟩

theorem kept_setChan {c : DvrChannel} (hc : (d.dvrChannels ch).Kept c) : Kept d (d.setChan ch c) := by
  intro i
  by_cases hi : i = ch
  · rw [hi, Dev.dvrChannels_setChan, Function.update_self]
    exact hc
  · rw [Dev.dvrChannels_setChan, Function.update_of_ne hi]
    exact ⟨rfl, rfl, id⟩

theorem Kept.reset (h : Kept d d') (b : Prop) [Decidable b] : Kept d (if b then dvrReset d' else d') :=
  h.trans (kept_of_chans (tables_reset d' b).2.2)

theorem kept_findChannel {pid : Nat} {k : Bool} (hf : dvrFindChannel d pid k = some (d', ch)) :
    Kept d d' := by
  unfold dvrFindChannel at hf
  split at hf
  · dsimp only at hf
    split at hf
    · exact nomatch hf
    · obtain ⟨rfl, -⟩ := Prod.mk.inj (Option.some.inj hf)
      exact kept_setChan ⟨rfl, rfl, id⟩
  · split at hf
    · obtain ⟨rfl, -⟩ := Prod.mk.inj (Option.some.inj hf)
      exact kept_setChan ⟨rfl, rfl, fun _ => rfl⟩
    · exact nomatch hf

theorem kept_enableFilter {b : Bool} (hr : dvrEnableFilter d fid b = some (d', ret)) : Kept d d' := by
  unfold dvrEnableFilter at hr
  split at hr
  · cases hr
    exact kept_of_chans rfl
  · obtain ⟨g, -, hr⟩ := Option.bind_eq_some_iff.mp hr
    split at hr
    · split at hr
      · cases hr
        exact kept_of_chans rfl
      · rename_i hfind
        cases hr
        refine Kept.reset ?_ _
        exact (kept_findChannel hfind).trans (kept_of_chans rfl)
    · obtain ⟨c, -, hr⟩ := Option.bind_eq_some_iff.mp hr
      cases hr
      refine Kept.reset ?_ _
      exact kept_setChan ⟨rfl, rfl, id⟩

theorem kept_program {prog : DvrFilter → DvrFilter} (hr : dvrProgram d fid prog = some (d', ret)) :
    Kept d d' := by
  unfold dvrProgram at hr
  dsimp only at hr
  by_cases he : (d.filters fid).enable = true
  · rw [if_pos he] at hr
    obtain ⟨d1, h1, hr⟩ := Option.bind_eq_some_iff.mp hr
    obtain ⟨⟨e, r⟩, he1, rfl⟩ := Option.map_eq_some_iff.mp h1
    obtain ⟨g, -, hr⟩ := Option.bind_eq_some_iff.mp hr
    rw [if_pos he] at hr
    obtain ⟨d2, h2, hr⟩ := Option.bind_eq_some_iff.mp hr
    obtain ⟨⟨e2, r2⟩, he2, rfl⟩ := Option.map_eq_some_iff.mp h2
    cases hr
    refine (kept_enableFilter he1).trans (Kept.trans ?_ (kept_enableFilter he2))
    exact kept_of_chans rfl
  · rw [if_neg he] at hr
    obtain ⟨d1, h1, hr⟩ := Option.bind_eq_some_iff.mp hr
    cases h1
    obtain ⟨g, -, hr⟩ := Option.bind_eq_some_iff.mp hr
    rw [if_neg he] at hr
    obtain ⟨d2, h2, hr⟩ := Option.bind_eq_some_iff.mp hr
    cases h2
    cases hr
    exact kept_of_chans rfl

theorem kept_stop (hr : dmxStopFilter d fid = some (d', ret)) : Kept d d' := by
  unfold dmxStopFilter at hr
  split at hr
  · cases hr
    exact kept_of_chans rfl
  · obtain ⟨⟨d1, r⟩, h1, hr⟩ := Option.bind_eq_some_iff.mp hr
    dsimp only at hr
    split at hr
    · cases hr
      exact (kept_enableFilter h1).trans (kept_of_chans rfl)
    · cases hr
      exact kept_enableFilter h1

theorem kept_free (hr : dmxFreeFilter d fid = some (d', ret)) : Kept d d' := by
  unfold dmxFreeFilter at hr
  split at hr
  · cases hr
    exact kept_of_chans rfl
  · obtain ⟨⟨d1, r1⟩, h1, hr⟩ := Option.bind_eq_some_iff.mp hr
    have hk1 := kept_stop h1
    dsimp only at hr
    split at hr
    · obtain ⟨⟨d2, r2⟩, h2, hr⟩ := Option.bind_eq_some_iff.mp hr
      obtain ⟨⟨d3, r3⟩, h3, h2⟩ := Option.bind_eq_some_iff.mp h2
      obtain ⟨g, -, h2⟩ := Option.bind_eq_some_iff.mp h2
      cases h2
      have hk3 := hk1.trans (kept_enableFilter h3)
      dsimp only at hr
      split at hr
      · cases hr
        exact hk3.trans (kept_of_chans rfl)
      · cases hr
        exact hk3.trans (kept_of_chans rfl)
    · obtain ⟨⟨d2, r2⟩, h2, hr⟩ := Option.bind_eq_some_iff.mp hr
      cases h2
      dsimp only at hr
      split at hr
      · cases hr
        exact hk1.trans (kept_of_chans rfl)
      · cases hr
        exact hk1

theorem kept_allocate : Kept d (amDmxAllocateFilter d).1 := by
  refine kept_of_chans ?_
  unfold amDmxAllocateFilter dvrAllocFilter
  split
  · rfl
  · dsimp only
    split <;> rfl

/-- The frame of the calls that set a filter. -/
theorem kept_set {hd : Int} {prog : DvrFilter → DvrFilter}
    (hr : dmxSet d hd (fun d fid => dvrProgram d fid prog) = some (d', ret)) : Kept d d' := by
  unfold dmxSet at hr
  split at hr
  · cases hr
    exact kept_of_chans rfl
  · obtain ⟨⟨d1, r1⟩, h1, hr⟩ := Option.bind_eq_some_iff.mp hr
    dsimp only at hr
    split at hr
    · exact (kept_stop h1).trans (kept_program hr)
    · cases hr
      exact kept_stop h1

/-- **Calls keep the channels.** -/
theorem kept_call {op : Op} (hr : call d op = some (d', ret)) : Kept d d' := by
  cases op with
  | allocateFilter =>
    cases hr
    exact kept_allocate
  | setSecFilter hd p => exact kept_set hr
  | setPesFilter hd pid => exact kept_set hr
  | startFilter hd =>
    simp only [call, amDmxStartFilter] at hr
    split at hr
    · cases hr
    · split at hr
      · cases hr
        exact kept_of_chans rfl
      · obtain ⟨⟨d1, r1⟩, h1, hr⟩ := Option.bind_eq_some_iff.mp hr
        dsimp only at hr
        split at hr
        · cases hr
          exact (kept_enableFilter h1).trans (kept_of_chans rfl)
        · cases hr
          exact kept_enableFilter h1
  | stopFilter hd =>
    simp only [call, amDmxStopFilter] at hr
    split at hr
    · cases hr
      exact kept_of_chans rfl
    · split at hr
      · exact kept_stop hr
      · cases hr
        exact kept_of_chans rfl
  | freeFilter hd =>
    simp only [call, amDmxFreeFilter] at hr
    split at hr
    · cases hr
      exact kept_of_chans rfl
    · exact kept_free hr

end

/-! ## The link -/

/-- No channel has a link to a filter. -/
def Unlinked (d : Dev) : Prop := ∀ c, (d.dvrChannels c).filters = none

theorem stable_unlinked : Stable Unlinked where
  call h hc := fun c => (kept_call hc c).filters (h c)
  chan := by
    intro d ch c h hl i
    rw [Dev.dvrChannels_setChan]
    by_cases hi : i = ch
    · rw [hi, Function.update_self]
      exact hl.filters.trans (h ch)
    · rw [Function.update_of_ne hi]
      exact h i

/-! ## Runs -/

/-- A used PES channel has an enabled PES filter. -/
theorem Inv.exists_servesPes {d : Dev} {ch : Fin 32} {pid : Nat} (hi : Inv d)
    (hf : findPid d pid = some ch) (hs : (d.dvrChannels ch).isSec = false) :
    ∃ a, d.ServesPes a pid := by
  obtain ⟨hused, hpid⟩ : (d.dvrChannels ch).used ≠ 0 ∧ (d.dvrChannels ch).pid = pid := by
    simpa using Fin.eq_true_of_find?_eq_some hf
  have hcard : 0 < (d.enabledOn ch).card := by
    have := hi.count ch
    omega
  obtain ⟨a, ha⟩ := Finset.card_pos.mp hcard
  obtain ⟨he, hc⟩ := mem_enabledOn.mp ha
  obtain ⟨g, c, h1, h2, h3, h4⟩ := hi.carried a he
  have hch : c = ch := by
    rw [Dev.chanOf, h1, Option.bind_some, h2] at hc
    exact Option.some.inj hc
  subst hch
  exact ⟨a, he, g, h1, h4.symm.trans hs, h3.symm.trans hpid⟩

/-- A packet on which `parse_pes` follows `NULL` is not parsed to its end. -/
theorem packetStep_value_of_pesCalls {s : St} {buf : List Byte} (h : pesCalls s buf = none) :
    (packetStep s buf).value = none := by
  unfold pesCalls at h
  split at h
  · exact nomatch h
  next pid payload hc =>
    split at h
    · exact nomatch h
    next ch hf =>
      split at h
      · exact nomatch h
      next hsec =>
        have htarget : s.dev.pesTarget ch = none := Option.map_eq_none_iff.mp h
        have hpes : parsePes s ch = .stop := by
          unfold parsePes
          split
          · rfl
          next g hg =>
            have hlink : (s.dev.dvrChannels ch).filters = some g := hg
            rw [Dev.pesTarget, hlink, Option.bind_some] at htarget
            rw [htarget]
        unfold carriedBy at hc
        dsimp only at hc
        split at hc
        next hp =>
          obtain ⟨rfl, rfl⟩ := Prod.mk.inj (Option.some.inj hc)
          obtain ⟨hlen, h1, h2, h3, h4, h5⟩ := hp
          unfold packetStep parseTsPacket
          dsimp only
          rw [if_neg (not_lt.mpr hlen), if_pos ⟨h1, h2, h3, h4⟩, hf]
          dsimp only
          rw [if_pos h5, if_neg hsec, hpes]
          rfl
        · cases hc

/-- With no link set, `parse_pes` makes no call. -/
theorem Unlinked.pesCalls_eq_nil {s : St} (hu : Unlinked s.dev) {buf : List Byte}
    {calls : List (Fin 32 × List Byte)} (h : pesCalls s buf = some calls) : calls = [] := by
  unfold pesCalls at h
  split at h
  · exact (Option.some.inj h).symm
  · split at h
    · exact (Option.some.inj h).symm
    next ch _ =>
      split at h
      · exact (Option.some.inj h).symm
      · rw [Dev.pesTarget, hu ch] at h
        exact nomatch h

/-- With no link set, `parse_pes` is safe only where it is not called. -/
theorem pesSafe_iff {s : St} (hi : Inv s.dev) (hu : Unlinked s.dev) (buf : List Byte) :
    PesSafe s buf ↔ NoPes s buf := by
  constructor
  · intro h a pid payload hc hserve
    obtain ⟨calls, hcalls, hone⟩ := h.delivered a pid payload hc hserve
    rw [hu.pesCalls_eq_nil hcalls] at hone
    exact nomatch hone
  · intro h
    refine ⟨fun a pid payload hc hserve => absurd hserve (h a pid payload hc), ?_⟩
    intro ch pid payload hc hf hs
    obtain ⟨a, ha⟩ := hi.exists_servesPes hf hs
    exact absurd ha (h a pid payload hc)

def dvrStep (s : Option St) (i : Input) : Option St × Unit := (s.bind fun s => (inputStep s i).value, ())

/-- `P` of the packets of a run. -/
def AtPacket (P : St → List Byte → Prop) (s : Option St) (i : Input) : Prop :=
  ∀ t buf, s = some t → i = .packet buf → P t buf

/-- A property of the packets of a run may be replaced by one that is the same in every device
with `P`, if every step keeps `P`. -/
theorem each_dvrStep_iff {P : Dev → Prop} {E : SecEvent → Prop} {A B : St → List Byte → Prop}
    (hstep : ∀ {s : St}, P s.dev → ∀ i, (inputStep s i).Meets E (P ·.dev)) (hopen : P dvrOpen)
    (hiff : ∀ {s : St}, P s.dev → ∀ buf, A s buf ↔ B s buf) {env : List (List Op)} {ins : List Input} :
    Each (AtPacket A) dvrStep (some ⟨dvrOpen, env⟩) ins ↔
      Each (AtPacket B) dvrStep (some ⟨dvrOpen, env⟩) ins := by
  have hinv : ∀ s i, (∀ t, s = some t → P t.dev) → ∀ t, (dvrStep s i).1 = some t → P t.dev := by
    intro s i hs t ht
    obtain ⟨u, rfl, hv⟩ := Option.bind_eq_some_iff.mp ht
    exact (hstep (hs u rfl) i).value t hv
  have hiff' : ∀ s i, (∀ t, s = some t → P t.dev) → (AtPacket A s i ↔ AtPacket B s i) := by
    intro s i hs
    exact forall₄_congr fun t buf ht _ => hiff (hs t ht) buf
  have hinit : ∀ t, some (St.mk dvrOpen env) = some t → P t.dev := by
    intro t ht
    obtain rfl := Option.some.inj ht
    exact hopen
  exact each_congr hinv hiff' hinit

/-- **PES payloads are delivered in exactly the runs in which none comes for an enabled PES
filter.** -/
theorem pesSafe_run_iff (env : List (List Op)) (ins : List Input) :
    Each (AtPacket PesSafe) dvrStep (some ⟨dvrOpen, env⟩) ins ↔
      Each (AtPacket NoPes) dvrStep (some ⟨dvrOpen, env⟩) ins := by
  have hstable := stable_inv.and stable_unlinked
  exact each_dvrStep_iff (P := fun d => Inv d ∧ Unlinked d) (fun hi i => hstable.inputStep hi i)
    ⟨inv_dvrOpen, fun _ => rfl⟩ fun hi buf => pesSafe_iff hi.1 hi.2 buf

/-- A PES filter on PID 0x12 is started. -/
def startPes : List Op := [.allocateFilter, .setPesFilter 0 0x12, .startFilter 0]

/-- A packet on PID 0x12. -/
def pesPacket : List Byte := Packet.bytes 0x12 ⟨.cont (List.replicate 184 0), false, 0, none⟩

/-- The first payload for an enabled PES filter follows `NULL`. -/
theorem pesSafe_startPes :
    ValidRun dvrOpen startPes ∧
      ¬ Each (AtPacket PesSafe) dvrStep (some ⟨dvrOpen, []⟩) (startPes.map .call ++ [.packet pesPacket]) := by
  refine ⟨by decide +kernel, ?_⟩
  rintro ⟨-, -, -, h, -⟩
  have hstate : ∃ t ∈ (dvrStep (dvrStep (dvrStep (some ⟨dvrOpen, []⟩) (.call .allocateFilter)).1
      (.call (.setPesFilter 0 0x12))).1 (.call (.startFilter 0))).1,
      t.dev.ServesPes 0 0x12 ∧ pesCalls t pesPacket = none := by decide +kernel
  have hcarried : ∃ x ∈ carriedBy pesPacket, x.1 = 0x12 := by decide +kernel
  obtain ⟨t, ht, hserve, hnone⟩ := hstate
  obtain ⟨⟨pid, payload⟩, hc, rfl⟩ := hcarried
  obtain ⟨calls, hcalls, -⟩ := (h t pesPacket ht rfl).delivered 0 0x12 payload hc hserve
  rw [hnone] at hcalls
  exact nomatch hcalls

end VendorAmlogic.Demux
