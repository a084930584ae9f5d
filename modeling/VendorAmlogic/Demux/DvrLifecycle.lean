import VendorAmlogic.Demux.DvrChannels

/-!
# Who gets a section

A run of the device: calls of the filter interface, incoming packets, and the
calls made while a callback runs. `check_sec` looks at `f->used` and `f->chan`
only. Stopping a filter leaves `f->chan`, and `dvr_alloc_filter` does not clear
it, so a filter that is not enabled may still be found by its old channel.
-/

namespace VendorAmlogic.Demux

open VendorAmlogic.Lib

/-! ## What a section event says -/

/-- The driver's filter `g` is looked at for a section in the channel, and matches. -/
def SecEvent.Meant (e : SecEvent) (g : Fin 32) : Prop :=
  (e.dev.dvrFilters g).used = true ∧ (e.dev.dvrFilters g).chan = some e.chan ∧
    secMatch (e.dev.dvrFilters g) (e.dev.dvrChannels e.chan).buf.1 = true

/-- The driver's filter `g` belongs to an enabled filter. -/
def Dev.Live (d : Dev) (g : Fin 32) : Prop :=
  ∃ a, (d.dvrFilters g).dmxFilter = some a ∧ (d.filters a).enable = true

/-- Filter `a` is allocated, enabled, and set as a section filter for `pid`. -/
structure Dev.Serves (d : Dev) (a : Fin 32) (pid : Nat) : Prop where
  used : (d.filters a).used = true
  enable : (d.filters a).enable = true
  sec : ∃ g, (d.filters a).drvData = some g ∧ (d.dvrFilters g).secFilter = true ∧
    (d.dvrFilters g).pid = pid

/-- Filter `b` serves the PID and matches the section. -/
def SecEvent.Due (e : SecEvent) (b : Fin 32) : Prop :=
  e.dev.Serves b e.pid ∧ ∃ g, (e.dev.filters b).drvData = some g ∧
    secMatch (e.dev.dvrFilters g) (e.dev.dvrChannels e.chan).buf.1 = true

/-- The callback goes to a filter that serves the PID, and no filter misses a section
that is due to it because a filter that is not enabled was found. -/
structure SecEvent.Proper (e : SecEvent) : Prop where
  serves : ∀ a data, e.callback = some (a, data) → e.dev.Serves a e.pid
  starves : ∀ b, e.Due b → ∀ a data, e.callback = some (a, data) → (e.dev.filters a).enable = true

/-- A filter that is not enabled keeps the channel, matches, and stands in the table
before every enabled filter that does. -/
def SecEvent.StaleFirst (e : SecEvent) : Prop :=
  ∃ g, e.Meant g ∧ ¬ e.dev.Live g ∧ ∀ g' < g, e.Meant g' → ¬ e.dev.Live g'

/-- The channel is still the section channel of the PID. -/
def SecEvent.Kept (e : SecEvent) : Prop :=
  (e.dev.dvrChannels e.chan).pid = e.pid ∧ (e.dev.dvrChannels e.chan).isSec = true

/-- What every event of a run has: the tables are in order, and the filter is the
one the loop of `check_sec` finds. -/
structure SecEvent.Sound (e : SecEvent) : Prop where
  inv : Inv e.dev
  filter : e.filter = findMatch e.dev e.chan

section
variable {e : SecEvent} {g a : Fin 32} {data : List Byte}

theorem SecEvent.Sound.meant (h : e.Sound) (hg : e.filter = some g) :
    e.Meant g ∧ ∀ g' < g, ¬ e.Meant g' := by
  rw [h.filter, findMatch, Fin.find?_eq_some_iff] at hg
  obtain ⟨h1, h2⟩ := hg
  refine ⟨by simpa [SecEvent.Meant, and_assoc] using h1, fun g' hg' hm => ?_⟩
  have := h2 g' hg'
  simp [hm.1, hm.2.1, hm.2.2] at this

theorem SecEvent.Sound.exists_filter (h : e.Sound) (hg : e.Meant g) :
    ∃ g', e.filter = some g' ∧ g' ≤ g := by
  cases hf : e.filter with
  | none =>
    rw [h.filter, findMatch, Fin.find?_eq_none_iff] at hf
    have := hf g
    simp [hg.1, hg.2.1, hg.2.2] at this
  | some g' =>
    refine ⟨g', rfl, ?_⟩
    by_contra hlt
    exact (h.meant hf).2 g (lt_of_not_ge hlt) hg

theorem SecEvent.callback_eq (h : e.callback = some (a, data)) :
    ∃ g, e.filter = some g ∧ (e.dev.dvrFilters g).dmxFilter = some a := by
  obtain ⟨g, hg, h⟩ := Option.bind_eq_some_iff.mp h
  obtain ⟨b, hb, h⟩ := Option.bind_eq_some_iff.mp h
  obtain ⟨rfl, -⟩ := Prod.mk.inj (Option.some.inj h)
  exact ⟨g, hg, hb⟩

/-- An enabled filter is found by the channel it is on. -/
theorem SecEvent.Sound.carried (h : e.Sound) (hg : e.Meant g)
    (ha : (e.dev.dvrFilters g).dmxFilter = some a) (he : (e.dev.filters a).enable = true) :
    (e.dev.filters a).drvData = some g ∧
      (e.dev.dvrChannels e.chan).pid = (e.dev.dvrFilters g).pid ∧
      (e.dev.dvrChannels e.chan).isSec = (e.dev.dvrFilters g).secFilter := by
  obtain ⟨b, hb, -, hd⟩ := h.inv.own g hg.1
  rw [ha] at hb
  cases hb
  obtain ⟨x, c, hx, hc, hpid, hsec⟩ := h.inv.carried a he
  rw [hd] at hx
  cases hx
  rw [hg.2.1] at hc
  cases hc
  exact ⟨hd, hpid, hsec⟩

/-- **One section**: the callback is proper exactly if no filter that is not enabled
is found first, and the channel has not been given away while the packet was parsed. -/
theorem SecEvent.Sound.proper_iff (h : e.Sound) :
    e.Proper ↔ ¬ e.StaleFirst ∧ ∀ g, e.Meant g → e.dev.Live g → e.Kept := by
  constructor
  · intro hp
    have hserve : ∀ g, e.filter = some g → ∃ a, (e.dev.dvrFilters g).dmxFilter = some a ∧
        e.dev.Serves a e.pid := by
      intro g hg
      obtain ⟨a, ha, -, -⟩ := h.inv.own g (h.meant hg).1.1
      exact ⟨a, ha, hp.serves a e.data (by simp [SecEvent.callback, hg, ha])⟩
    refine ⟨fun ⟨g, hm, hn, hfirst⟩ => ?_, fun g hm _ => ?_⟩
    · obtain ⟨x, hx, hle⟩ := h.exists_filter hm
      obtain ⟨a, ha, hs⟩ := hserve x hx
      rcases hle.lt_or_eq with hlt | rfl
      · exact hfirst x hlt (h.meant hx).1 ⟨a, ha, hs.enable⟩
      · exact hn ⟨a, ha, hs.enable⟩
    · obtain ⟨x, hx, -⟩ := h.exists_filter hm
      obtain ⟨a, ha, hs⟩ := hserve x hx
      obtain ⟨hd, hpid, hsec⟩ := h.carried (h.meant hx).1 ha hs.enable
      obtain ⟨y, hy, hy1, hy2⟩ := hs.sec
      rw [hd] at hy
      cases hy
      exact ⟨hpid.trans hy2, hsec.trans hy1⟩
  · rintro ⟨hstale, hkept⟩
    have hserve : ∀ a data, e.callback = some (a, data) → e.dev.Serves a e.pid := by
      intro a data hcb
      obtain ⟨g, hg, ha⟩ := SecEvent.callback_eq hcb
      obtain ⟨hm, hfirst⟩ := h.meant hg
      have hlive : e.dev.Live g := by
        by_contra hn
        exact hstale ⟨g, hm, hn, fun g' hlt hm' => absurd hm' (hfirst g' hlt)⟩
      obtain ⟨b, hb, he⟩ := hlive
      rw [ha] at hb
      cases hb
      obtain ⟨hd, hpid, hsec⟩ := h.carried hm ha he
      obtain ⟨k1, k2⟩ := hkept g hm ⟨a, ha, he⟩
      exact ⟨h.inv.enable_used a he, he, g, hd, hsec.symm.trans k2, hpid.symm.trans k1⟩
    exact ⟨hserve, fun _ _ a data hcb => (hserve a data hcb).enable⟩

end

/-! ## The tables along a run -/

section
variable {d d' : Dev} {s : St} {ch : Fin 32}

/-- Parsing changes only what a channel has collected. -/
theorem Inv.setChan (hi : Inv d) {c : DvrChannel} (hu : c.used = (d.dvrChannels ch).used)
    (hp : c.pid = (d.dvrChannels ch).pid) (hs : c.isSec = (d.dvrChannels ch).isSec) :
    Inv (d.setChan ch c) := by
  have hch := d.dvrChannels_setChan ch c
  have hu' := proj_update DvrChannel.used hch hu
  have hp' := proj_update DvrChannel.pid hch hp
  have hs' := proj_update DvrChannel.isSec hch hs
  refine ⟨hi.enable_used, hi.drv, hi.own, fun x => (hu' x).trans (hi.count x), fun a ha => ?_,
    fun x y hx hy hxy => ?_, hi.fds.trans (usedPids_congr fun x => ?_)⟩
  · obtain ⟨g, x, h1, h2, h3, h4⟩ := hi.carried a ha
    exact ⟨g, x, h1, h2, (hp' x).trans h3, (hs' x).trans h4⟩
  · rw [hu'] at hx hy
    rw [hp', hp'] at hxy
    exact hi.pids x y hx hy hxy
  · rw [hu', hp']
    exact ⟨Iff.rfl, fun _ => rfl⟩

theorem dmxGetUsedFilter_invalid {h : Int} (hn : ¬ d.IsHandle h) :
    ∃ err, dmxGetUsedFilter d h = .error err := by
  unfold dmxGetUsedFilter
  split
  · rename_i hr
    dsimp only
    split
    · exact absurd ⟨⟨h.toNat, by omega⟩, by simp; omega, ‹_›⟩ hn
    · exact ⟨_, rfl⟩
  · exact ⟨_, rfl⟩

/-- A call with a handle that is not valid changes nothing. -/
theorem call_invalid {op : Op} {ret : Int} (hn : ¬ Valid d op) (h : call d op = some (d', ret)) :
    d' = d := by
  cases op with
  | allocateFilter => exact absurd trivial hn
  | setSecFilter hd p | setPesFilter hd p =>
    obtain ⟨err, he⟩ := dmxGetUsedFilter_invalid hn
    simp only [call, amDmxSetSecFilter, amDmxSetPesFilter, dmxSet, he, Option.some.injEq,
      Prod.mk.injEq] at h
    exact h.1.symm
  | startFilter hd =>
    obtain ⟨err, he⟩ := dmxGetUsedFilter_invalid hn
    simp [call, amDmxStartFilter, he] at h
  | stopFilter hd | freeFilter hd =>
    obtain ⟨err, he⟩ := dmxGetUsedFilter_invalid hn
    simp only [call, amDmxStopFilter, amDmxFreeFilter, he, Option.some.injEq, Prod.mk.injEq] at h
    exact h.1.symm

theorem Inv.of_call {op : Op} {ret : Int} (hi : Inv d) (h : Demux.call d op = some (d', ret)) :
    Inv d' := by
  by_cases hv : Valid d op
  · obtain ⟨d1, ret1, h1, hi1⟩ := hi.call hv
    rw [h] at h1
    cases h1
    exact hi1
  · rw [call_invalid hv h]
    exact hi

end

/-- The channels are the same but for what has been collected in them. -/
structure SameLink (c c' : DvrChannel) : Prop where
  used : c'.used = c.used
  pid : c'.pid = c.pid
  isSec : c'.isSec = c.isSec
  filters : c'.filters = c.filters

theorem sameLink_refl (c : DvrChannel) : SameLink c c := ⟨rfl, rfl, rfl, rfl⟩

/-- A property of the device that calls keep and parsing does not look at. -/
structure Stable (P : Dev → Prop) : Prop where
  call : ∀ {d d' op ret}, P d → Demux.call d op = some (d', ret) → P d'
  chan : ∀ {d ch c}, P d → SameLink (d.dvrChannels ch) c → P (d.setChan ch c)

theorem stable_inv : Stable Inv where
  call hi h := hi.of_call h
  chan hi h := hi.setChan h.used h.pid h.isSec

theorem Stable.and {P Q : Dev → Prop} (hp : Stable P) (hq : Stable Q) :
    Stable fun d => P d ∧ Q d where
  call h hc := ⟨hp.call h.1 hc, hq.call h.2 hc⟩
  chan h hl := ⟨hp.chan h.1 hl, hq.chan h.2 hl⟩

/-- The filter of an event is the one the loop of `check_sec` finds, in a device with `P`. -/
def SecEvent.FoundIn (P : Dev → Prop) (e : SecEvent) : Prop :=
  P e.dev ∧ e.filter = findMatch e.dev e.chan

section
variable {P : Dev → Prop} {d d' : Dev} {s : St} {ch : Fin 32}

theorem Stable.runOps (hP : Stable P) (hi : P d) {ops : List Op} (h : Demux.runOps d ops = some d') :
    P d' := by
  induction ops generalizing d with
  | nil =>
    cases h
    exact hi
  | cons op ops ih =>
    obtain ⟨⟨d1, ret⟩, h1, h2⟩ := Option.bind_eq_some_iff.mp h
    exact ih (hP.call hi h1) h2

theorem Stable.dataCb (hP : Stable P) {s' : St} (hi : P s.dev) (h : Demux.dataCb s = some s') :
    P s'.dev := by
  unfold Demux.dataCb at h
  split at h
  · cases h
    exact hi
  · obtain ⟨d, hd, rfl⟩ := Option.map_eq_some_iff.mp h
    exact hP.runOps hi hd

/-! ## Packets -/

theorem Stable.dispatch (hP : Stable P) (hi : P s.dev) (pid : Nat) :
    (Demux.dispatch pid s ch).Meets (SecEvent.FoundIn P) (P ·.dev) := by
  unfold Demux.dispatch
  dsimp only
  split
  · exact Trace.meets_emit ⟨hi, Eq.symm ‹_›⟩ hi
  · split
    · exact Trace.meets_stop
    · refine Trace.Meets.bind (Q := fun s : St => P s.dev)
        (Trace.meets_emit ⟨hi, Eq.symm ‹_›⟩ hi) fun s hi => ?_
      exact Trace.meets_ofOption fun _ h => hP.dataCb hi h

theorem Stable.clear (hP : Stable P) (hi : P s.dev) : P (s.clear ch).dev :=
  hP.chan hi ⟨rfl, rfl, rfl, rfl⟩

theorem sameLink_fillSec {c c' : DvrChannel} {data : List Byte} {n : Nat}
    (h : fillSec c data = some (c', n)) : SameLink c c' := by
  obtain ⟨⟨c1, r⟩, h1, h⟩ := Option.bind_eq_some_iff.mp h
  obtain ⟨⟨c2, m⟩, h2, h⟩ := Option.bind_eq_some_iff.mp h
  obtain ⟨rfl, -⟩ := Prod.mk.inj (Option.some.inj h)
  have hc1 : SameLink c c1 := by
    unfold fillHeader at h1
    split at h1
    · obtain ⟨b, -, h1⟩ := Option.bind_eq_some_iff.mp h1
      cases h1
      exact ⟨rfl, rfl, rfl, rfl⟩
    · cases h1
      exact sameLink_refl c
  unfold fillBody at h2
  split at h2
  · cases h2
  · obtain ⟨b, -, h2⟩ := Option.bind_eq_some_iff.mp h2
    cases h2
    exact ⟨hc1.used, hc1.pid, hc1.isSec, hc1.filters⟩

theorem Stable.checkSec (hP : Stable P) (hi : P s.dev) (pid : Nat) (data : List Byte) :
    (Demux.checkSec pid s ch data).Meets (SecEvent.FoundIn P) (P ·.1.dev) := by
  unfold Demux.checkSec
  dsimp only
  split
  · exact (Trace.meets_ofOption fun _ _ => trivial).bind fun b (_ : True) =>
      Trace.meets_pure (hP.chan hi ⟨rfl, rfl, rfl, rfl⟩)
  · refine (Trace.meets_ofOption fun _ h => sameLink_fillSec h).bind fun ⟨c, ret⟩ hc => ?_
    have hi' : P (s.setChan ch c).dev := hP.chan hi hc
    dsimp only
    split
    · exact (hP.dispatch hi' pid).bind fun _ hi => Trace.meets_pure (hP.clear hi)
    · exact Trace.meets_pure hi'

theorem Stable.secLoop (hP : Stable P) (pid fuel : Nat) (first : Bool) (hi : P s.dev)
    (data : List Byte) :
    (Demux.secLoop pid ch fuel first s data).Meets (SecEvent.FoundIn P) (P ·.dev) := by
  induction fuel generalizing first s data with
  | zero => exact Trace.meets_stop
  | succ fuel ih =>
    unfold Demux.secLoop
    split
    · exact (hP.checkSec hi pid data).bind fun _ hi => ih false hi _
    · exact Trace.meets_pure hi

theorem Stable.parseSec (hP : Stable P) (hi : P s.dev) (pid : Nat) (data : List Byte) (pStart : Bool) :
    (Demux.parseSec pid s ch data pStart).Meets (SecEvent.FoundIn P) (P ·.dev) := by
  unfold Demux.parseSec
  dsimp only
  split
  · split
    · refine (hP.checkSec hi pid _).bind fun r hi => ?_
      rw [Trace.pure_bind]
      exact hP.secLoop pid _ true (hP.clear hi) _
    · rw [Trace.pure_bind]
      exact hP.secLoop pid _ true (hP.clear hi) _
  · exact hP.secLoop pid _ true hi _

theorem Stable.parsePes (hP : Stable P) (hi : P s.dev) :
    (Demux.parsePes s ch).Meets (SecEvent.FoundIn P) (P ·.dev) := by
  unfold Demux.parsePes
  split
  · exact Trace.meets_stop
  · split
    · exact Trace.meets_stop
    · exact Trace.meets_ofOption fun _ h => hP.dataCb hi h

theorem Stable.packetStep (hP : Stable P) (hi : P s.dev) (buf : List Byte) :
    (Demux.packetStep s buf).Meets (SecEvent.FoundIn P) (P ·.dev) := by
  suffices h : (parseTsPacket s buf).Meets (SecEvent.FoundIn P) (P ·.1.dev) from
    h.bind fun _ hi => Trace.meets_pure hi
  unfold parseTsPacket
  dsimp only
  split
  · exact Trace.meets_pure hi
  · split
    · split
      · exact Trace.meets_pure hi
      · split
        · split
          · exact (hP.parseSec hi _ _ _).bind fun _ hi =>
              Trace.meets_pure (hP.chan hi ⟨rfl, rfl, rfl, rfl⟩)
          · exact (hP.parsePes hi).bind fun _ hi =>
              Trace.meets_pure (hP.chan hi ⟨rfl, rfl, rfl, rfl⟩)
        · rw [Trace.pure_bind]
          exact Trace.meets_pure (hP.chan hi ⟨rfl, rfl, rfl, rfl⟩)
    · exact Trace.meets_pure hi

end

/-! ## Runs -/

/-- What comes in: a call, or bytes that `parse_ts_packet` is called on. -/
inductive Input where
  | call (op : Op)
  | packet (buf : List Byte)

def inputStep (s : St) : Input → Trace SecEvent St
  | .call op => .ofOption ((call s.dev op).map fun r => { s with dev := r.1 })
  | .packet buf => packetStep s buf

theorem Stable.inputStep {P : Dev → Prop} (hP : Stable P) {s : St} (hi : P s.dev) (i : Input) :
    (Demux.inputStep s i).Meets (SecEvent.FoundIn P) (P ·.dev) := by
  cases i with
  | call op =>
    refine Trace.meets_ofOption fun s' h => ?_
    obtain ⟨⟨d, ret⟩, hr, rfl⟩ := Option.map_eq_some_iff.mp h
    exact hP.call hi hr
  | packet buf => exact hP.packetStep hi buf

/-- **Sections go to the filters they are for**, in every run and at every section,
exactly if no filter that is not enabled is found first by its old channel, and the
channel of an enabled filter that matches is still the one of the PID. The calls made
while callbacks run are `env`. -/
theorem sections_proper_iff (env : List (List Op)) (ins : List Input) :
    ∀ e ∈ (Trace.feed inputStep ⟨dvrOpen, env⟩ ins).events,
      (e.Proper ↔ ¬ e.StaleFirst ∧ ∀ g, e.Meant g → e.dev.Live g → e.Kept) := by
  have h : (Trace.feed inputStep ⟨dvrOpen, env⟩ ins).Meets (SecEvent.FoundIn Inv) (Inv ·.dev) :=
    Trace.meets_feed (fun _ i hi => stable_inv.inputStep hi i) inv_dvrOpen ins
  intro e he
  obtain ⟨hi, hf⟩ := h.events e he
  exact SecEvent.Sound.proper_iff ⟨hi, hf⟩

/-- The section 42 00 00 on PID 0x12. -/
def shortSection : List Byte :=
  Packet.bytes 0x12 ⟨.start [] [[0x42, 0, 0]] (.stuffing 180), false, 0, none⟩

theorem sections_proper_shortSection :
    ∃ e ∈ (Trace.feed inputStep ⟨dvrOpen, []⟩
      (sharedPid.map .call ++ [.packet shortSection])).events,
      e.callback = some (0, [0x42, 0, 0]) ∧
        (e.Proper ↔ ¬ e.StaleFirst ∧ ∀ g, e.Meant g → e.dev.Live g → e.Kept) := by
  have h : ∃ e ∈ (Trace.feed inputStep ⟨dvrOpen, []⟩
      (sharedPid.map .call ++ [.packet shortSection])).events,
      e.callback = some (0, [0x42, 0, 0]) := by
    decide +kernel
  obtain ⟨e, he, hcb⟩ := h
  exact ⟨e, he, hcb, sections_proper_iff [] _ e he⟩

/-- The stopped filter gets the section. -/
theorem stopped_filter_called : ValidRun dvrOpen sharedPid ∧
    ¬ ∀ e ∈ (Trace.feed inputStep ⟨dvrOpen, []⟩
      (sharedPid.map .call ++ [.packet shortSection])).events, e.Proper := by
  have h : ∃ e ∈ (Trace.feed inputStep ⟨dvrOpen, []⟩
      (sharedPid.map .call ++ [.packet shortSection])).events,
      e.callback = some (0, [0x42, 0, 0]) ∧ (e.dev.filters 0).enable = false := by
    decide +kernel
  refine ⟨by decide +kernel, fun hp => ?_⟩
  obtain ⟨e, he, hcb, hen⟩ := h
  exact absurd ((hp e he).serves 0 _ hcb).enable (by simp [hen])

end VendorAmlogic.Demux
