import Mathlib.Tactic
import VendorAmlogic.Demux.DvrParse

/-!
# The channel table of the DVR demultiplexer

`Inv`: what holds between the two filter tables, the channels and the open demux
devices, after every call of the filter interface. A channel's use count is
moved by `dvr_enable_filter`, but the flag it counts belongs to the layer above,
which sets it after the driver has returned; the invariant is that of the two
steps together.
-/

namespace VendorAmlogic.Demux

open VendorAmlogic.Lib

/-- The channel of a filter of the device, through the driver's filter. -/
def Dev.chanOf (d : Dev) (a : Fin 32) : Option (Fin 32) :=
  (d.filters a).drvData.bind fun g => (d.dvrFilters g).chan

/-- The enabled filters on a channel. -/
def Dev.enabledOn (d : Dev) (c : Fin 32) : Finset (Fin 32) :=
  Finset.univ.filter fun a => (d.filters a).enable = true ∧ d.chanOf a = some c

/-- The PIDs of the used channels. -/
def usedPids (ch : Fin 32 → DvrChannel) : List Nat :=
  ((List.finRange 32).filter fun i => (ch i).used ≠ 0).map fun i => (ch i).pid

/-- The enabled filter `a` is on a channel of its PID and kind. -/
def Dev.Carried (d : Dev) (a : Fin 32) : Prop :=
  ∃ g c, (d.filters a).drvData = some g ∧ (d.dvrFilters g).chan = some c ∧
    (d.dvrChannels c).pid = (d.dvrFilters g).pid ∧
    (d.dvrChannels c).isSec = (d.dvrFilters g).secFilter

structure Inv (d : Dev) : Prop where
  enable_used : ∀ a, (d.filters a).enable = true → (d.filters a).used = true
  drv : ∀ a, (d.filters a).used = true → ∃ g, (d.filters a).drvData = some g ∧
    (d.dvrFilters g).used = true ∧ (d.dvrFilters g).dmxFilter = some a
  own : ∀ g, (d.dvrFilters g).used = true → ∃ a, (d.dvrFilters g).dmxFilter = some a ∧
    (d.filters a).used = true ∧ (d.filters a).drvData = some g
  count : ∀ c, (d.dvrChannels c).used = (d.enabledOn c).card
  carried : ∀ a, (d.filters a).enable = true → d.Carried a
  pids : ∀ c c', (d.dvrChannels c).used ≠ 0 → (d.dvrChannels c').used ≠ 0 →
    (d.dvrChannels c).pid = (d.dvrChannels c').pid → c = c'
  fds : d.dmxFds = usedPids d.dvrChannels

theorem inv_dvrOpen : Inv dvrOpen where
  enable_used := fun _ h => nomatch h
  drv := fun _ h => nomatch h
  own := fun _ h => nomatch h
  count := fun c => by
    have h : dvrOpen.enabledOn c = ∅ := Finset.filter_eq_empty_iff.mpr fun a _ ha => nomatch ha.1
    rw [h]; rfl
  carried := fun _ h => nomatch h
  pids := fun _ _ h => absurd rfl h
  fds := by
    have h : ∀ i, ¬ (dvrOpen.dvrChannels i).used ≠ 0 := fun _ h => h rfl
    unfold usedPids
    rw [List.filter_eq_nil_iff.mpr fun i _ => by simpa using h i]
    rfl

section
variable {d : Dev} {a b g c : Fin 32}

theorem Inv.drv_inj (hi : Inv d) (ha : (d.filters a).used = true) (hb : (d.filters b).used = true)
    (hga : (d.filters a).drvData = some g) (hgb : (d.filters b).drvData = some g) : a = b := by
  obtain ⟨ga, h1, -, h2⟩ := hi.drv a ha
  obtain ⟨gb, h3, -, h4⟩ := hi.drv b hb
  rw [hga] at h1; rw [hgb] at h3
  cases h1; cases h3
  rw [h2] at h4
  exact Option.some.inj h4

theorem mem_enabledOn : a ∈ d.enabledOn c ↔ (d.filters a).enable = true ∧ d.chanOf a = some c := by
  simp [Dev.enabledOn]

/-- A channel with an enabled filter is used. -/
theorem Inv.used_ne (hi : Inv d) (h : a ∈ d.enabledOn c) : (d.dvrChannels c).used ≠ 0 := by
  rw [hi.count]
  have := Finset.card_pos.mpr ⟨a, h⟩
  omega

theorem usedPids_congr {ch ch' : Fin 32 → DvrChannel}
    (h : ∀ i, ((ch i).used ≠ 0 ↔ (ch' i).used ≠ 0) ∧ ((ch i).used ≠ 0 → (ch i).pid = (ch' i).pid)) :
    usedPids ch = usedPids ch' := by
  have hf : ((List.finRange 32).filter fun i => (ch i).used ≠ 0) =
      (List.finRange 32).filter fun i => (ch' i).used ≠ 0 :=
    List.filter_congr fun i _ => by simp only [(h i).1]
  unfold usedPids
  rw [hf]
  refine List.map_congr_left fun i hi => (h i).2 ((h i).1.2 ?_)
  simpa using (List.mem_filter.mp hi).2

/-- A field that a table update leaves alone. -/
theorem proj_update {α β : Type} (π : α → β) {f f' : Fin 32 → α} {i : Fin 32} {v : α}
    (hf : f' = Function.update f i v) (h : π v = π (f i)) (j : Fin 32) : π (f' j) = π (f j) := by
  by_cases hj : j = i
  · subst hj; rw [hf, Function.update_self, h]
  · rw [hf, Function.update_of_ne hj]

/-! ## Disabling -/

/-- The demux devices are reopened when the use count `n` of the channel that
changed says so; either way they are those of the used channels. -/
theorem fds_reset {d : Dev} {b : Prop} [Decidable b]
    (h : ¬ b → d.dmxFds = usedPids d.dvrChannels) :
    (if b then dvrReset d else d).dmxFds = usedPids d.dvrChannels := by
  split
  · rfl
  · exact h ‹_›

theorem tables_reset (d : Dev) (b : Prop) [Decidable b] :
    (if b then dvrReset d else d).filters = d.filters ∧
      (if b then dvrReset d else d).dvrFilters = d.dvrFilters ∧
      (if b then dvrReset d else d).dvrChannels = d.dvrChannels := by
  split <;> exact ⟨rfl, rfl, rfl⟩

/-- One filter less on channel `c`. -/
theorem Inv.detach {d' : Dev} (hi : Inv d) (he : (d.filters a).enable = true)
    (hc : d.chanOf a = some c)
    (hf : d'.filters = Function.update d.filters a { d.filters a with enable := false })
    (hv : d'.dvrFilters = d.dvrFilters)
    (hch : d'.dvrChannels = Function.update d.dvrChannels c
      { d.dvrChannels c with used := (d.dvrChannels c).used - 1 })
    (hfd : d'.dmxFds = usedPids d'.dvrChannels) : Inv d' := by
  have hused : ∀ b, (d'.filters b).used = (d.filters b).used :=
    proj_update DmxFilter.used hf rfl
  have hdrv : ∀ b, (d'.filters b).drvData = (d.filters b).drvData :=
    proj_update DmxFilter.drvData hf rfl
  have hen : ∀ b, (d'.filters b).enable = true ↔ (d.filters b).enable = true ∧ b ≠ a := by
    intro b; rw [hf]; by_cases hb : b = a
    · subst hb; simp
    · simp [hb]
  have hpid : ∀ i, (d'.dvrChannels i).pid = (d.dvrChannels i).pid :=
    proj_update DvrChannel.pid hch rfl
  have hsec : ∀ i, (d'.dvrChannels i).isSec = (d.dvrChannels i).isSec :=
    proj_update DvrChannel.isSec hch rfl
  have hchan : ∀ b, d'.chanOf b = d.chanOf b := by
    intro b; simp only [Dev.chanOf, hdrv, hv]
  have hon : ∀ i, d'.enabledOn i = (d.enabledOn i).erase a := by
    intro i
    ext b
    rw [Finset.mem_erase, mem_enabledOn, mem_enabledOn, hen, hchan]
    tauto
  have hmem : a ∈ d.enabledOn c := mem_enabledOn.2 ⟨he, hc⟩
  have hcount : ∀ i, (d'.dvrChannels i).used = (d'.enabledOn i).card := by
    intro i
    rw [hon, hch]
    by_cases h : i = c
    · subst h
      have := Finset.card_erase_add_one hmem
      simp [hi.count]
      omega
    · have hn : a ∉ d.enabledOn i := fun hm => by
        rw [mem_enabledOn, hc] at hm
        exact h (Option.some.inj hm.2).symm
      rw [Finset.erase_eq_of_notMem hn, ← hi.count]
      simp [h]
  have hne : ∀ i, (d'.dvrChannels i).used ≠ 0 → (d.dvrChannels i).used ≠ 0 := by
    intro i h
    rw [hcount, hon] at h
    rw [hi.count]
    have := Finset.card_erase_le (s := d.enabledOn i) (a := a)
    omega
  refine ⟨?_, ?_, ?_, hcount, ?_, ?_, hfd⟩
  · intro b hb
    rw [hused]
    exact hi.enable_used b ((hen b).1 hb).1
  · intro b hb
    rw [hused] at hb
    rw [hdrv, hv]
    exact hi.drv b hb
  · intro x hx
    rw [hv] at hx ⊢
    obtain ⟨b, h1, h2, h3⟩ := hi.own x hx
    exact ⟨b, h1, by rw [hused]; exact h2, by rw [hdrv]; exact h3⟩
  · intro b hb
    obtain ⟨x, y, h1, h2, h3, h4⟩ := hi.carried b ((hen b).1 hb).1
    exact ⟨x, y, by rw [hdrv]; exact h1, by rw [hv]; exact h2, by rw [hpid, hv]; exact h3,
      by rw [hsec, hv]; exact h4⟩
  · intro i j h1 h2 h3
    rw [hpid, hpid] at h3
    exact hi.pids i j (hne i h1) (hne j h2) h3

/-! ## Enabling -/

/-- What `dvr_find_channel` can do: nothing, or one more use of a channel, which is
one of the PID already or a free one. -/
theorem dvrFindChannel_cases (d : Dev) (pid : Nat) (k : Bool) :
    dvrFindChannel d pid k = none ∨
    ∃ c ch, dvrFindChannel d pid k = some (d.setChan c ch, c) ∧
      ch.used = (d.dvrChannels c).used + 1 ∧ ch.pid = pid ∧ ch.isSec = k ∧
      (((d.dvrChannels c).used ≠ 0 ∧ (d.dvrChannels c).pid = pid ∧ (d.dvrChannels c).isSec = k) ∨
        ((d.dvrChannels c).used = 0 ∧
          ∀ i, (d.dvrChannels i).used ≠ 0 → (d.dvrChannels i).pid ≠ pid)) := by
  unfold dvrFindChannel
  cases h1 : Fin.find? fun i => decide ((d.dvrChannels i).used ≠ 0 ∧ (d.dvrChannels i).pid = pid) with
  | some c =>
    have hc := Fin.eq_true_of_find?_eq_some h1
    simp only [decide_eq_true_eq] at hc
    simp only
    split
    · exact .inl rfl
    · rename_i hk
      exact .inr ⟨c, _, rfl, rfl, hc.2, not_not.mp hk, .inl ⟨hc.1, hc.2, not_not.mp hk⟩⟩
  | none =>
    have hno := Fin.eq_false_of_find?_eq_none h1
    simp only [decide_eq_false_iff_not, not_and] at hno
    simp only
    cases h2 : Fin.find? fun i => decide ((d.dvrChannels i).used = 0) with
    | none => exact .inl rfl
    | some c =>
      have hc := Fin.eq_true_of_find?_eq_some h2
      simp only [decide_eq_true_eq] at hc
      exact .inr ⟨c, _, rfl, by simp [hc], rfl, rfl, .inr ⟨hc, hno⟩⟩

/-- One filter more on channel `c`. -/
theorem Inv.attach {d' : Dev} {ch : DvrChannel} (hi : Inv d) (hu : (d.filters a).used = true)
    (he : (d.filters a).enable = false) (hg : (d.filters a).drvData = some g)
    (h1 : ch.used = (d.dvrChannels c).used + 1) (h2 : ch.pid = (d.dvrFilters g).pid)
    (h3 : ch.isSec = (d.dvrFilters g).secFilter)
    (h4 : ((d.dvrChannels c).used ≠ 0 ∧ (d.dvrChannels c).pid = (d.dvrFilters g).pid ∧
        (d.dvrChannels c).isSec = (d.dvrFilters g).secFilter) ∨
      ((d.dvrChannels c).used = 0 ∧
        ∀ i, (d.dvrChannels i).used ≠ 0 → (d.dvrChannels i).pid ≠ (d.dvrFilters g).pid))
    (hf : d'.filters = Function.update d.filters a { d.filters a with enable := true })
    (hv : d'.dvrFilters = Function.update d.dvrFilters g { d.dvrFilters g with chan := some c })
    (hch : d'.dvrChannels = Function.update d.dvrChannels c ch)
    (hfd : d'.dmxFds = usedPids d'.dvrChannels) : Inv d' := by
  have hused : ∀ b, (d'.filters b).used = (d.filters b).used :=
    proj_update DmxFilter.used hf rfl
  have hdrv : ∀ b, (d'.filters b).drvData = (d.filters b).drvData :=
    proj_update DmxFilter.drvData hf rfl
  have hen : ∀ b, (d'.filters b).enable = true ↔ (d.filters b).enable = true ∨ b = a := by
    intro b; rw [hf]; by_cases hb : b = a
    · subst hb; simp
    · simp [hb]
  have hvused : ∀ x, (d'.dvrFilters x).used = (d.dvrFilters x).used :=
    proj_update DvrFilter.used hv rfl
  have hvdmx : ∀ x, (d'.dvrFilters x).dmxFilter = (d.dvrFilters x).dmxFilter :=
    proj_update DvrFilter.dmxFilter hv rfl
  have hvpid : ∀ x, (d'.dvrFilters x).pid = (d.dvrFilters x).pid :=
    proj_update DvrFilter.pid hv rfl
  have hvsec : ∀ x, (d'.dvrFilters x).secFilter = (d.dvrFilters x).secFilter :=
    proj_update DvrFilter.secFilter hv rfl
  -- the other enabled filters keep their channel
  have hother : ∀ b, (d.filters b).enable = true → d'.chanOf b = d.chanOf b := by
    intro b hb
    have hub := hi.enable_used b hb
    obtain ⟨x, hx, -, -⟩ := hi.drv b hub
    have hxg : x ≠ g := by
      rintro rfl
      have := hi.drv_inj hub hu hx hg
      subst this
      rw [he] at hb
      exact absurd hb (by decide)
    simp only [Dev.chanOf, hdrv, hx, Option.bind_some, hv, Function.update_of_ne hxg]
  have hself : d'.chanOf a = some c := by
    simp only [Dev.chanOf, hdrv, hg, Option.bind_some, hv, Function.update_self]
  have hnot : ∀ i, a ∉ d.enabledOn i := fun i hm => by
    rw [mem_enabledOn, he] at hm
    exact absurd hm.1 (by decide)
  have hon : ∀ i, d'.enabledOn i = if i = c then insert a (d.enabledOn i) else d.enabledOn i := by
    intro i
    ext b
    by_cases hb : b = a
    · subst hb
      have : b ∈ d'.enabledOn i ↔ c = i := by
        rw [mem_enabledOn, hen, hself]; simp
      rw [this]
      split
      · simp [*]
      · rename_i hic
        exact iff_of_false (fun h => hic h.symm) (hnot i)
    · have : b ∈ d'.enabledOn i ↔ b ∈ d.enabledOn i := by
        rw [mem_enabledOn, mem_enabledOn, hen]
        constructor
        · rintro ⟨h | h, hc⟩
          · exact ⟨h, by rw [← hother b h]; exact hc⟩
          · exact absurd h hb
        · rintro ⟨h, hc⟩
          exact ⟨.inl h, by rw [hother b h]; exact hc⟩
      rw [this]
      split
      · simp [hb]
      · exact Iff.rfl
  have hcount : ∀ i, (d'.dvrChannels i).used = (d'.enabledOn i).card := by
    intro i
    rw [hon, hch]
    by_cases h : i = c
    · subst h
      simp [Finset.card_insert_of_notMem (hnot i), h1, hi.count]
    · simp [h, hi.count]
  -- a channel with an enabled filter is not one `dvr_find_channel` has just taken
  have hkeep : ∀ b i, b ∈ d.enabledOn i →
      (d'.dvrChannels i).pid = (d.dvrChannels i).pid ∧
        (d'.dvrChannels i).isSec = (d.dvrChannels i).isSec := by
    intro b i hb
    rw [hch]
    by_cases h : i = c
    · subst h
      rcases h4 with ⟨-, hp, hs⟩ | ⟨hz, -⟩
      · simp [h2, h3, hp, hs]
      · exact absurd hz (hi.used_ne hb)
    · simp [h]
  refine ⟨?_, ?_, ?_, hcount, ?_, ?_, hfd⟩
  · intro b hb
    rw [hused]
    rcases (hen b).1 hb with h | rfl
    · exact hi.enable_used b h
    · exact hu
  · intro b hb
    rw [hused] at hb
    obtain ⟨x, hx1, hx2, hx3⟩ := hi.drv b hb
    exact ⟨x, by rw [hdrv]; exact hx1, by rw [hvused]; exact hx2, by rw [hvdmx]; exact hx3⟩
  · intro x hx
    rw [hvused] at hx
    obtain ⟨b, hb1, hb2, hb3⟩ := hi.own x hx
    exact ⟨b, by rw [hvdmx]; exact hb1, by rw [hused]; exact hb2, by rw [hdrv]; exact hb3⟩
  · intro b hb
    by_cases hba : b = a
    · subst hba
      refine ⟨g, c, by rw [hdrv]; exact hg, ?_, ?_, ?_⟩
      · rw [hv, Function.update_self]
      · rw [hch, Function.update_self, hvpid, h2]
      · rw [hch, Function.update_self, hvsec, h3]
    · have hb' := ((hen b).1 hb).resolve_right hba
      obtain ⟨x, y, hx1, hx2, hx3, hx4⟩ := hi.carried b hb'
      have hcb : d.chanOf b = some y := by simp only [Dev.chanOf, hx1, Option.bind_some, hx2]
      obtain ⟨hk1, hk2⟩ := hkeep b y (mem_enabledOn.2 ⟨hb', hcb⟩)
      have hcb' := hother b hb'
      rw [hcb, Dev.chanOf, hdrv, hx1, Option.bind_some] at hcb'
      exact ⟨x, y, by rw [hdrv]; exact hx1, hcb', by rw [hk1, hvpid]; exact hx3,
        by rw [hk2, hvsec]; exact hx4⟩
  · -- the channel that is taken has a PID of its own
    have hold : ∀ i, i ≠ c → (d'.dvrChannels i) = d.dvrChannels i := by
      intro i h; rw [hch, Function.update_of_ne h]
    have hnew : (d'.dvrChannels c).pid = (d.dvrFilters g).pid := by
      rw [hch, Function.update_self, h2]
    have huniq : ∀ i, i ≠ c → (d.dvrChannels i).used ≠ 0 →
        (d.dvrChannels i).pid ≠ (d.dvrFilters g).pid := by
      intro i hic hui
      rcases h4 with ⟨hn, hp, -⟩ | ⟨-, hno⟩
      · exact fun h => hic (hi.pids i c hui hn (h.trans hp.symm))
      · exact hno i hui
    intro i j hi1 hj1 hp
    by_cases hic : i = c
    · by_cases hjc : j = c
      · rw [hic, hjc]
      · rw [hic, hnew, hold j hjc] at hp
        rw [hold j hjc] at hj1
        exact absurd hp.symm (huniq j hjc hj1)
    · by_cases hjc : j = c
      · rw [hjc, hnew, hold i hic] at hp
        rw [hold i hic] at hi1
        exact absurd hp (huniq i hic hi1)
      · rw [hold i hic, hold j hjc] at hp
        rw [hold i hic] at hi1
        rw [hold j hjc] at hj1
        exact hi.pids i j hi1 hj1 hp

/-! ## Allocating, programming and freeing -/

/-- Changes that leave the channels and the enabled filters alone. -/
theorem Inv.of_tables {d' : Dev} (hi : Inv d) (hch : d'.dvrChannels = d.dvrChannels)
    (hfd : d'.dmxFds = d.dmxFds) (hen : ∀ b, (d'.filters b).enable = (d.filters b).enable)
    (hk : ∀ b x, (d.filters b).enable = true → (d.filters b).drvData = some x →
      (d'.filters b).drvData = some x ∧ (d'.dvrFilters x).chan = (d.dvrFilters x).chan ∧
        (d'.dvrFilters x).pid = (d.dvrFilters x).pid ∧
        (d'.dvrFilters x).secFilter = (d.dvrFilters x).secFilter)
    (h1 : ∀ b, (d'.filters b).enable = true → (d'.filters b).used = true)
    (h2 : ∀ b, (d'.filters b).used = true → ∃ x, (d'.filters b).drvData = some x ∧
      (d'.dvrFilters x).used = true ∧ (d'.dvrFilters x).dmxFilter = some b)
    (h3 : ∀ x, (d'.dvrFilters x).used = true → ∃ b, (d'.dvrFilters x).dmxFilter = some b ∧
      (d'.filters b).used = true ∧ (d'.filters b).drvData = some x) : Inv d' := by
  have hchan : ∀ b, (d.filters b).enable = true → d'.chanOf b = d.chanOf b := by
    intro b hb
    obtain ⟨x, hx, -, -⟩ := hi.drv b (hi.enable_used b hb)
    obtain ⟨hx', hc, -, -⟩ := hk b x hb hx
    simp only [Dev.chanOf, hx, hx', Option.bind_some, hc]
  have hon : ∀ i, d'.enabledOn i = d.enabledOn i := by
    intro i
    ext b
    rw [mem_enabledOn, mem_enabledOn, hen]
    refine and_congr_right fun hb => ?_
    rw [hchan b hb]
  refine ⟨h1, h2, h3, ?_, ?_, ?_, ?_⟩
  · intro c
    rw [hch, hon]
    exact hi.count c
  · intro b hb
    rw [hen] at hb
    obtain ⟨x, y, hx1, hx2, hx3, hx4⟩ := hi.carried b hb
    obtain ⟨hk1, hk2, hk3, hk4⟩ := hk b x hb hx1
    exact ⟨x, y, hk1, hk2.trans hx2, by rw [hch, hk3]; exact hx3, by rw [hch, hk4]; exact hx4⟩
  · rw [hch]; exact hi.pids
  · rw [hfd, hch]; exact hi.fds

/-- A filter that is not enabled is given another program. -/
theorem Inv.program {f : DvrFilter} (hi : Inv d) (hu : (d.filters a).used = true)
    (he : (d.filters a).enable = false) (hg : (d.filters a).drvData = some g)
    (h1 : f.used = (d.dvrFilters g).used) (h2 : f.dmxFilter = (d.dvrFilters g).dmxFilter) :
    Inv (d.setDvr g f) := by
  have hother : ∀ b x, (d.filters b).enable = true → (d.filters b).drvData = some x → x ≠ g := by
    rintro b x hb hx rfl
    have := hi.drv_inj (hi.enable_used b hb) hu hx hg
    subst this
    rw [he] at hb
    exact absurd hb (by decide)
  have hused := proj_update DvrFilter.used (d.dvrFilters_setDvr g f) h1
  have hdmx := proj_update DvrFilter.dmxFilter (d.dvrFilters_setDvr g f) h2
  refine hi.of_tables rfl rfl (fun _ => rfl) (fun b x hb hx => ?_) hi.enable_used ?_ ?_
  · have hne := hother b x hb hx
    simp [hx, hne]
  · intro b hb
    obtain ⟨x, hx1, hx2, hx3⟩ := hi.drv b hb
    exact ⟨x, hx1, by rw [hused]; exact hx2, by rw [hdmx]; exact hx3⟩
  · intro x hx
    rw [hused] at hx
    obtain ⟨b, hb1, hb2, hb3⟩ := hi.own x hx
    exact ⟨b, by rw [hdmx]; exact hb1, hb2, hb3⟩

/-- A filter that is not enabled goes back to both tables. -/
theorem Inv.release (hi : Inv d) (hu : (d.filters a).used = true)
    (he : (d.filters a).enable = false) (hg : (d.filters a).drvData = some g) :
    Inv ((d.setDvr g { d.dvrFilters g with used := false }).setFilter a
      { d.filters a with used := false }) := by
  have hne : ∀ b x, b ≠ a → (d.filters b).used = true → (d.filters b).drvData = some x → x ≠ g := by
    rintro b x hb hub hx rfl
    exact hb (hi.drv_inj hub hu hx hg)
  refine hi.of_tables rfl rfl ?_ (fun b x hb hx => ?_) ?_ ?_ ?_
  · exact proj_update DmxFilter.enable rfl rfl
  · have hba : b ≠ a := by
      rintro rfl
      rw [he] at hb
      exact absurd hb (by decide)
    have := hne b x hba (hi.enable_used b hb) hx
    simp [hba, this, hx]
  · intro b hb
    have hba : b ≠ a := by
      rintro rfl
      simp [he] at hb
    simp only [Dev.filters_setFilter, Dev.filters_setDvr, Function.update_of_ne hba] at hb ⊢
    exact hi.enable_used b hb
  · intro b hb
    have hba : b ≠ a := by
      rintro rfl
      simp at hb
    simp only [Dev.filters_setFilter, Dev.filters_setDvr, Function.update_of_ne hba] at hb ⊢
    obtain ⟨x, hx1, hx2, hx3⟩ := hi.drv b hb
    have := hne b x hba hb hx1
    exact ⟨x, hx1, by simp [this, hx2], by simp [this, hx3]⟩
  · intro x hx
    have hxg : x ≠ g := by
      rintro rfl
      simp at hx
    simp only [Dev.dvrFilters_setFilter, Dev.dvrFilters_setDvr, Function.update_of_ne hxg] at hx ⊢
    obtain ⟨b, hb1, hb2, hb3⟩ := hi.own x hx
    have hba : b ≠ a := by
      rintro rfl
      rw [hg] at hb3
      exact hxg (Option.some.inj hb3).symm
    exact ⟨b, hb1, by simp [hba, hb2], by simp [hba, hb3]⟩

/-- A free place in both tables is taken. -/
theorem Inv.allocate {d' : Dev} {f : DvrFilter} {x : DmxFilter} (hi : Inv d)
    (hu : (d.filters a).used = false) (hg : (d.dvrFilters g).used = false)
    (h1 : d'.filters = Function.update d.filters a x)
    (h2 : d'.dvrFilters = Function.update d.dvrFilters g f)
    (h3 : d'.dvrChannels = d.dvrChannels) (h4 : d'.dmxFds = d.dmxFds)
    (hfu : f.used = true) (hfd : f.dmxFilter = some a) (hx : x.used = true)
    (hxd : x.drvData = some g) (hxe : x.enable = (d.filters a).enable) : Inv d' := by
  have hna : ∀ b, (d.filters b).used = true → b ≠ a := by
    rintro b hb rfl
    rw [hu] at hb
    exact absurd hb (by decide)
  have hng : ∀ y, (d.dvrFilters y).used = true → y ≠ g := by
    rintro y hy rfl
    rw [hg] at hy
    exact absurd hy (by decide)
  have hen := proj_update DmxFilter.enable h1 hxe
  refine hi.of_tables h3 h4 hen (fun b y hb hy => ?_) ?_ ?_ ?_
  · have hub := hi.enable_used b hb
    obtain ⟨z, hz1, hz2, -⟩ := hi.drv b hub
    rw [hy] at hz1
    cases hz1
    rw [h1, h2, Function.update_of_ne (hna b hub), Function.update_of_ne (hng y hz2)]
    exact ⟨hy, rfl, rfl, rfl⟩
  · intro b hb
    rw [hen] at hb
    have hub := hi.enable_used b hb
    rw [h1, Function.update_of_ne (hna b hub)]
    exact hub
  · intro b hb
    by_cases hba : b = a
    · subst hba
      exact ⟨g, by rw [h1, Function.update_self, hxd], by rw [h2, Function.update_self, hfu],
        by rw [h2, Function.update_self, hfd]⟩
    · rw [h1, Function.update_of_ne hba] at hb ⊢
      obtain ⟨y, hy1, hy2, hy3⟩ := hi.drv b hb
      exact ⟨y, hy1, by rw [h2, Function.update_of_ne (hng y hy2)]; exact hy2,
        by rw [h2, Function.update_of_ne (hng y hy2)]; exact hy3⟩
  · intro y hy
    by_cases hyg : y = g
    · subst hyg
      exact ⟨a, by rw [h2, Function.update_self, hfd], by rw [h1, Function.update_self, hx],
        by rw [h1, Function.update_self, hxd]⟩
    · rw [h2, Function.update_of_ne hyg] at hy ⊢
      obtain ⟨b, hb1, hb2, hb3⟩ := hi.own y hy
      exact ⟨b, hb1, by rw [h1, Function.update_of_ne (hna b hb2)]; exact hb2,
        by rw [h1, Function.update_of_ne (hna b hb2)]; exact hb3⟩

/-! ## The calls -/

/-- `dmx_stop_filter` on a used filter. -/
theorem Inv.stop (hi : Inv d) (hu : (d.filters a).used = true) :
    ∃ d', dmxStopFilter d a = some (d', 0) ∧ Inv d' ∧
      d'.filters = Function.update d.filters a { d.filters a with enable := false } ∧
      d'.dvrFilters = d.dvrFilters := by
  cases he : (d.filters a).enable with
  | false =>
    refine ⟨d, by simp [dmxStopFilter, he], hi, ?_, rfl⟩
    have : ({ d.filters a with enable := false } : DmxFilter) = d.filters a := by
      rw [← he]
    rw [this, Function.update_eq_self]
  | true =>
    obtain ⟨g, c, hg, hc, -, -⟩ := hi.carried a he
    have hca : d.chanOf a = some c := by simp only [Dev.chanOf, hg, Option.bind_some, hc]
    -- the driver's part, and the device's flag
    let ch : DvrChannel := { d.dvrChannels c with used := (d.dvrChannels c).used - 1 }
    let d1 : Dev := if ((d.setChan c ch).dvrChannels c).used = 0 then dvrReset (d.setChan c ch)
      else d.setChan c ch
    have hdrv : dvrEnableFilter d a false = some (d1, 0) := by
      simp [dvrEnableFilter, he, hg, hc, d1, ch]
    obtain ⟨t1, t2, t3⟩ := tables_reset (d.setChan c ch) (((d.setChan c ch).dvrChannels c).used = 0)
    have hmem : a ∈ d.enabledOn c := mem_enabledOn.2 ⟨he, hca⟩
    have hfds : d1.dmxFds = usedPids d1.dvrChannels := by
      rw [show d1.dvrChannels = (d.setChan c ch).dvrChannels from t3]
      refine fds_reset fun hnz => ?_
      rw [Dev.dmxFds_setChan, hi.fds]
      refine usedPids_congr fun i => ?_
      by_cases h : i = c
      · subst h
        have := hi.used_ne hmem
        simpa [ch, this] using hnz
      · simp [h]
    refine ⟨d1.setFilter a { d1.filters a with enable := false }, ?_, ?_, ?_, ?_⟩
    · simp [dmxStopFilter, hu, he, hdrv]
    · refine hi.detach he hca ?_ t2 t3 hfds
      rw [Dev.filters_setFilter, show d1.filters = d.filters from t1]
    · rw [Dev.filters_setFilter, show d1.filters = d.filters from t1]
    · exact t2

/-- The handle of a used filter. -/
theorem dmxGetUsedFilter_ok (hu : (d.filters a).used = true) :
    dmxGetUsedFilter d (a : Nat) = .ok a := by
  have : ((a : Nat) : Int) < 32 := by have := a.isLt; omega
  simp [dmxGetUsedFilter, this, hu]

/-- `dvr_enable_filter` with the flag set behind it. -/
theorem Inv.enable (hi : Inv d) (hu : (d.filters a).used = true)
    (he : (d.filters a).enable = false) :
    dvrEnableFilter d a true = some (d, errNoFreeFilter) ∨
      ∃ d', dvrEnableFilter d a true = some (d', 0) ∧
        Inv (d'.setFilter a { d'.filters a with enable := true }) := by
  obtain ⟨g, hg, -, -⟩ := hi.drv a hu
  rcases dvrFindChannel_cases d (d.dvrFilters g).pid (d.dvrFilters g).secFilter with hn | hs
  · left
    simp [dvrEnableFilter, he, hg, hn]
  · right
    obtain ⟨c, ch, hfind, h1, h2, h3, h4⟩ := hs
    let d1 : Dev := (d.setChan c ch).setDvr g { d.dvrFilters g with chan := some c }
    obtain ⟨t1, t2, t3⟩ := tables_reset d1 ((d1.dvrChannels c).used = 1)
    refine ⟨if (d1.dvrChannels c).used = 1 then dvrReset d1 else d1, ?_, ?_⟩
    · simp only [dvrEnableFilter, he, Bool.false_eq_true, ↓reduceIte, hg, Option.bind_eq_bind,
        Option.bind_some, hfind, Dev.dvrFilters_setChan]
      rfl
    have hfds : (if (d1.dvrChannels c).used = 1 then dvrReset d1 else d1).dmxFds =
        usedPids d1.dvrChannels := by
      refine fds_reset fun hne => ?_
      have hused : (d1.dvrChannels c).used = (d.dvrChannels c).used + 1 := by simp [d1, h1]
      have hpos := hi.count c
      show d.dmxFds = _
      rw [hi.fds]
      refine usedPids_congr fun i => ?_
      by_cases h : i = c
      · subst h
        rcases h4 with ⟨hnz, hp, -⟩ | ⟨hz, -⟩
        · simp [d1, h1, h2, hp, hnz]
          omega
        · omega
      · simp [d1, h]
    refine hi.attach hu he hg h1 h2 h3 h4 ?_ t2 t3 ?_
    · rw [Dev.filters_setFilter, t1]; rfl
    · exact hfds.trans (by rw [Dev.dvrChannels_setFilter, t3])

theorem Inv.start (hi : Inv d) (hu : (d.filters a).used = true) :
    ∃ d' ret, amDmxStartFilter d (a : Nat) = some (d', ret) ∧ Inv d' := by
  cases he : (d.filters a).enable with
  | true => exact ⟨d, 0, by simp [amDmxStartFilter, dmxGetUsedFilter_ok hu, he], hi⟩
  | false =>
    rcases hi.enable hu he with h | ⟨d', h, hi'⟩
    · refine ⟨d, errNoFreeFilter, ?_, hi⟩
      simp [amDmxStartFilter, dmxGetUsedFilter_ok hu, he, h, errNoFreeFilter]
    · exact ⟨_, 0, by simp [amDmxStartFilter, dmxGetUsedFilter_ok hu, he, h], hi'⟩

/-- The driver's part of setting a filter that has been stopped. -/
theorem Inv.set (hi : Inv d) (hu : (d.filters a).used = true) (prog : DvrFilter → DvrFilter)
    (h1 : ∀ f, (prog f).used = f.used) (h2 : ∀ f, (prog f).dmxFilter = f.dmxFilter) :
    ∃ d' ret, (dmxSet d (a : Nat) fun d fid => dvrProgram d fid prog) = some (d', ret) ∧ Inv d' := by
  obtain ⟨d', hstop, hi', hf, hv⟩ := hi.stop hu
  have hu' : (d'.filters a).used = true := by rw [hf, Function.update_self]; exact hu
  have he' : (d'.filters a).enable = false := by rw [hf, Function.update_self]
  obtain ⟨g, hg, -, -⟩ := hi'.drv a hu'
  refine ⟨d'.setDvr g (prog (d'.dvrFilters g)), 0, ?_, hi'.program hu' he' hg (h1 _) (h2 _)⟩
  simp [dmxSet, dmxGetUsedFilter_ok hu, hstop, dvrProgram, he', hg]

theorem Inv.stopFilter (hi : Inv d) (hu : (d.filters a).used = true) :
    ∃ d' ret, amDmxStopFilter d (a : Nat) = some (d', ret) ∧ Inv d' := by
  cases he : (d.filters a).enable with
  | false => exact ⟨d, 0, by simp [amDmxStopFilter, dmxGetUsedFilter_ok hu, he], hi⟩
  | true =>
    obtain ⟨d', hstop, hi', -, -⟩ := hi.stop hu
    exact ⟨d', 0, by simp [amDmxStopFilter, dmxGetUsedFilter_ok hu, he, hstop], hi'⟩

theorem Inv.free (hi : Inv d) (hu : (d.filters a).used = true) :
    ∃ d' ret, amDmxFreeFilter d (a : Nat) = some (d', ret) ∧ Inv d' := by
  obtain ⟨d', hstop, hi', hf, hv⟩ := hi.stop hu
  have hu' : (d'.filters a).used = true := by rw [hf, Function.update_self]; exact hu
  have he' : (d'.filters a).enable = false := by rw [hf, Function.update_self]
  obtain ⟨g, hg, -, -⟩ := hi'.drv a hu'
  refine ⟨_, 0, ?_, hi'.release hu' he' hg⟩
  simp [amDmxFreeFilter, dmxGetUsedFilter_ok hu, dmxFreeFilter, hu, hstop, dvrFreeFilter,
    dvrEnableFilter, he', hg]

theorem dvrAllocFilter_some (h : (Fin.find? fun i => ! (d.dvrFilters i).used) = some g) :
    dvrAllocFilter d a =
      ((d.setDvr g { d.dvrFilters g with
          used := true, dmxFilter := some a, secFilter := true, pid := 0x1FFF }).setFilter a
        { d.filters a with drvData := some g }, 0) := by
  unfold dvrAllocFilter
  rw [h]
  rfl

theorem dvrAllocFilter_none (h : (Fin.find? fun i => ! (d.dvrFilters i).used) = none) :
    dvrAllocFilter d a = (d, errNoFreeFilter) := by
  unfold dvrAllocFilter
  rw [h]

/-- What `AM_DMX_AllocateFilter` leaves: nothing changed, an identifier written into a
filter that stays free, or the filter taken together with a driver filter. -/
theorem amDmxAllocateFilter_cases (d : Dev) :
    (amDmxAllocateFilter d).1 = d ∨
    (∃ a, (amDmxAllocateFilter d).1 = d.setFilter a { d.filters a with id := a }) ∨
    ∃ a g, (d.filters a).used = false ∧ (d.dvrFilters g).used = false ∧
      (amDmxAllocateFilter d).1 =
        (d.setDvr g { d.dvrFilters g with
          used := true, dmxFilter := some a, secFilter := true, pid := 0x1FFF }).setFilter a
        { d.filters a with id := a, drvData := some g, used := true } := by
  unfold amDmxAllocateFilter
  rcases hfind : Fin.find? fun i => ! (d.filters i).used with _ | a
  · exact .inl rfl
  · have hu : (d.filters a).used = false := by simpa using Fin.eq_true_of_find?_eq_some hfind
    dsimp only
    rcases hfind' : Fin.find? fun i => ! (d.dvrFilters i).used with _ | g
    · rw [dvrAllocFilter_none (by rw [Dev.dvrFilters_setFilter]; exact hfind')]
      exact .inr (.inl ⟨a, rfl⟩)
    · have hg : (d.dvrFilters g).used = false := by
        simpa using Fin.eq_true_of_find?_eq_some hfind'
      rw [dvrAllocFilter_some (by rw [Dev.dvrFilters_setFilter]; exact hfind')]
      refine .inr (.inr ⟨a, g, hu, hg, ?_⟩)
      simp [Dev.setFilter, Dev.setDvr]

theorem Inv.alloc (hi : Inv d) : Inv (amDmxAllocateFilter d).1 := by
  rcases amDmxAllocateFilter_cases d with h | ⟨a, h⟩ | ⟨a, g, hu, hg, h⟩
  · rw [h]; exact hi
  · have hf := d.filters_setFilter a { d.filters a with id := a }
    have hused := proj_update DmxFilter.used hf rfl
    have hdrv := proj_update DmxFilter.drvData hf rfl
    have hen := proj_update DmxFilter.enable hf rfl
    rw [h]
    refine hi.of_tables rfl rfl hen (fun b x _ hx => ⟨(hdrv b).trans hx, rfl, rfl, rfl⟩) ?_ ?_ ?_
    · intro b hb
      rw [hused]
      exact hi.enable_used b ((hen b).symm.trans hb)
    · intro b hb
      obtain ⟨x, hx1, hx2⟩ := hi.drv b ((hused b).symm.trans hb)
      exact ⟨x, (hdrv b).trans hx1, hx2⟩
    · intro x hx
      obtain ⟨b, hb1, hb2, hb3⟩ := hi.own x hx
      exact ⟨b, hb1, (hused b).trans hb2, (hdrv b).trans hb3⟩
  · rw [h]
    exact hi.allocate hu hg rfl rfl rfl rfl rfl rfl rfl rfl rfl

/-! ## Runs -/

/-- `h` is the handle of an allocated filter. -/
def Dev.IsHandle (d : Dev) (h : Int) : Prop := ∃ a : Fin 32, h = (a : Nat) ∧ (d.filters a).used = true

instance (h : Int) : Decidable (d.IsHandle h) :=
  inferInstanceAs (Decidable (∃ a : Fin 32, h = (a : Nat) ∧ (d.filters a).used = true))

/-- A call with a valid handle. -/
def Valid (d : Dev) : Op → Prop
  | .allocateFilter => True
  | .setSecFilter h _ | .setPesFilter h _ | .startFilter h | .stopFilter h | .freeFilter h =>
    d.IsHandle h

instance (d : Dev) (op : Op) : Decidable (Valid d op) :=
  match op with
  | .allocateFilter => inferInstanceAs (Decidable True)
  | .setSecFilter h _ | .setPesFilter h _ | .startFilter h | .stopFilter h | .freeFilter h =>
    inferInstanceAs (Decidable (d.IsHandle h))

/-- The calls are valid, one after the other. -/
def ValidRun : Dev → List Op → Prop
  | _, [] => True
  | d, op :: ops => Valid d op ∧ ∀ r, call d op = some r → ValidRun r.1 ops

instance decidableValidRun : (d : Dev) → (ops : List Op) → Decidable (ValidRun d ops)
  | _, [] => inferInstanceAs (Decidable True)
  | d, op :: ops =>
    match h : call d op with
    | none => decidable_of_iff (Valid d op) ⟨fun hv => ⟨hv, fun r hr => by simp [h] at hr⟩, And.left⟩
    | some r =>
      have := decidableValidRun r.1 ops
      decidable_of_iff (Valid d op ∧ ValidRun r.1 ops)
        ⟨fun hv => ⟨hv.1, fun r' hr => Option.some.inj (h.symm.trans hr) ▸ hv.2⟩,
          fun hv => ⟨hv.1, hv.2 r h⟩⟩

/-- **One call** on a valid handle keeps the tables together. -/
theorem Inv.call (hi : Inv d) {op : Op} (hv : Valid d op) :
    ∃ d' ret, Demux.call d op = some (d', ret) ∧ Inv d' := by
  cases op with
  | allocateFilter => exact ⟨_, _, rfl, hi.alloc⟩
  | setSecFilter h p =>
    obtain ⟨a, rfl, hu⟩ := hv
    exact hi.set hu (secProgram p) (fun _ => rfl) (fun _ => rfl)
  | setPesFilter h pid =>
    obtain ⟨a, rfl, hu⟩ := hv
    exact hi.set hu (fun f => { f with secFilter := false, pid := pid.toNat })
      (fun _ => rfl) (fun _ => rfl)
  | startFilter h =>
    obtain ⟨a, rfl, hu⟩ := hv
    exact hi.start hu
  | stopFilter h =>
    obtain ⟨a, rfl, hu⟩ := hv
    exact hi.stopFilter hu
  | freeFilter h =>
    obtain ⟨a, rfl, hu⟩ := hv
    exact hi.free hu

/-- Every run of valid calls keeps the tables together. -/
theorem Inv.runOps (hi : Inv d) {ops : List Op} (hv : ValidRun d ops) :
    ∃ d', Demux.runOps d ops = some d' ∧ Inv d' := by
  induction ops generalizing d with
  | nil => exact ⟨d, rfl, hi⟩
  | cons op ops ih =>
    obtain ⟨d1, ret, hc, hi1⟩ := hi.call hv.1
    obtain ⟨d2, hr, hi2⟩ := ih hi1 (hv.2 _ hc)
    exact ⟨d2, by rw [Demux.runOps, hc]; exact hr, hi2⟩

end

/-! ## The table -/

/-- The channel table: use counts, PIDs, kinds, and one demux device for each used
channel. -/
structure ChannelTable (d : Dev) : Prop where
  count : ∀ c, (d.dvrChannels c).used = (d.enabledOn c).card
  pids : ∀ c c', 0 < (d.dvrChannels c).used → 0 < (d.dvrChannels c').used →
    (d.dvrChannels c).pid = (d.dvrChannels c').pid → c = c'
  carried : ∀ a, (d.filters a).enable = true → d.Carried a
  fds : d.dmxFds = ((List.finRange 32).filter fun c => 0 < (d.dvrChannels c).used).map
    fun c => (d.dvrChannels c).pid
  fds_le : d.dmxFds.length ≤ 32

theorem Inv.channelTable {d : Dev} (hi : Inv d) : ChannelTable d := by
  have hpos : ∀ c, (d.dvrChannels c).used ≠ 0 ↔ 0 < (d.dvrChannels c).used := by
    intro c
    have := hi.count c
    omega
  have hfds : d.dmxFds = ((List.finRange 32).filter fun c => 0 < (d.dvrChannels c).used).map
      fun c => (d.dvrChannels c).pid := by
    rw [hi.fds, usedPids]
    simp only [hpos]
  refine ⟨hi.count, fun c c' h h' => hi.pids c c' ((hpos c).2 h) ((hpos c').2 h'), hi.carried,
    hfds, ?_⟩
  rw [hfds, List.length_map]
  exact (List.length_filter_le _ _).trans_eq (List.length_finRange)

/-- **The channel table is right after every run**: calls on valid handles from a
fresh device never reach a `NULL`, and leave a table in order. -/
theorem channelTable_runOps (ops : List Op) (h : ValidRun dvrOpen ops) :
    ∃ d, runOps dvrOpen ops = some d ∧ ChannelTable d := by
  obtain ⟨d, hr, hi⟩ := inv_dvrOpen.runOps h
  exact ⟨d, hr, hi.channelTable⟩

/-- Two filters on one PID, the first of them stopped. -/
def sharedPid : List Op :=
  let p : SctFilterParams := ⟨0x12, fun _ => 0, fun _ => 0, fun _ => 0⟩
  [.allocateFilter, .allocateFilter, .setSecFilter 0 p, .setSecFilter 1 p, .startFilter 0,
    .startFilter 1, .stopFilter 0]

theorem channelTable_sharedPid : ValidRun dvrOpen sharedPid ∧
    ∃ d, runOps dvrOpen sharedPid = some d ∧ ChannelTable d := by
  have h : ValidRun dvrOpen sharedPid := by decide +kernel
  exact ⟨h, channelTable_runOps sharedPid h⟩

end VendorAmlogic.Demux
