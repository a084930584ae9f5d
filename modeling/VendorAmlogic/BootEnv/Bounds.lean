import VendorAmlogic.Lib.Run
import VendorAmlogic.BootEnv.Durability

/-!
# The U-Boot environment: what fits

`env_parse_attribute` and `bootenv_set_value` copy keys and values into fields of
fixed size, and `env_revert_attribute` writes one text behind the other, all of
them without a check. Here is said exactly for which images and updates every
copy and write has room, and the data still ends with an empty string.
-/

namespace VendorAmlogic.BootEnv

open VendorAmlogic.Lib

/-! ## The image -/

/-- The strings of the data, each with its NUL, and the empty one that ends them. The first one
may be empty. -/
inductive Entries : List Byte → List (List Byte) → Prop
  | last {t rest : List Byte} (ht : 0 ∉ t) : Entries (t ++ 0 :: 0 :: rest) [t]
  | more {t rest : List Byte} {x : Byte} {ts : List (List Byte)} (ht : 0 ∉ t) (hx : x ≠ 0)
      (h : Entries (x :: rest) ts) : Entries (t ++ 0 :: x :: rest) (t :: ts)

/-- The key and the value of a string have room in their fields. -/
def FieldsFit (t : List Byte) : Prop :=
  ∀ key value, t = key ++ 0x3D :: value → 0x3D ∉ key → key.length < 256 ∧ value.length < 1024

/-- The strings end within the image, and their keys and values fit. -/
def ImageFits (image : List Byte) : Prop := ∃ ts, Entries image ts ∧ ∀ t ∈ ts, FieldsFit t

section
variable {data tail t : List Byte} {proc : Nat}

theorem not_imageFits_of_nul (h : 0 ∉ data) : ¬ ImageFits data := by
  rintro ⟨ts, hts, -⟩
  cases hts with
  | last ht => exact h (by simp)
  | more ht hx hts => exact h (by simp)

/-- The first string, and what is behind it. -/
theorem imageFits_iff (ht : 0 ∉ t) :
    ImageFits (t ++ 0 :: tail) ↔
      FieldsFit t ∧ ∃ x rest, tail = x :: rest ∧ (x = 0 ∨ ImageFits (x :: rest)) := by
  constructor
  · rintro ⟨ts, hts, hfit⟩
    generalize hdata : t ++ 0 :: tail = data at hts
    cases hts with
    | last ht' =>
      obtain ⟨rfl, rfl⟩ := append_cons_inj_of_first ht ht' hdata
      exact ⟨hfit t List.mem_cons_self, 0, _, rfl, .inl rfl⟩
    | more ht' hx hts =>
      obtain ⟨rfl, rfl⟩ := append_cons_inj_of_first ht ht' hdata
      exact ⟨hfit t List.mem_cons_self, _, _, rfl,
        .inr ⟨_, hts, fun u hu => hfit u (List.mem_cons_of_mem _ hu)⟩⟩
  · rintro ⟨hfit, x, rest, rfl, h⟩
    by_cases hx : x = 0
    · subst hx
      exact ⟨[t], .last ht, List.forall_mem_singleton.mpr hfit⟩
    · obtain ⟨ts, hts, hall⟩ := h.resolve_left hx
      exact ⟨t :: ts, .more ht hx hts, List.forall_mem_cons.mpr ⟨hfit, hall⟩⟩

theorem fieldsFit_iff {key value : List Byte} (hkey : 0x3D ∉ key) :
    FieldsFit (key ++ 0x3D :: value) ↔ key.length < 256 ∧ value.length < 1024 := by
  refine ⟨fun h => h key value rfl hkey, fun h key' value' heq hkey' => ?_⟩
  obtain ⟨rfl, rfl⟩ := append_cons_inj_of_first hkey hkey' heq
  exact h

theorem fieldsFit_of_not_mem (h : 0x3D ∉ t) : FieldsFit t := by
  rintro key value rfl -
  exact absurd (by simp) h

/-- A string is copied exactly if its key and value fit, and what is behind it stays. -/
theorem parseLine_isSome_iff (hdata : data.drop proc = t ++ 0 :: tail) :
    ((parseLine data proc t.length).isSome ↔ FieldsFit t) ∧
      ∀ a d, parseLine data proc t.length = some (a, d) →
        d.drop (proc + t.length + 1) = tail := by
  have hline : (data.drop proc).take t.length = t := by rw [hdata, List.take_left]
  have htail : data.drop (proc + t.length + 1) = tail := by
    rw [Nat.add_assoc, ← List.drop_drop, hdata, ← List.drop_drop, List.drop_left]
    rfl
  unfold parseLine
  dsimp only
  rw [hline]
  cases hidx : t.findIdx? (· == 0x3D) with
  | none =>
    refine ⟨iff_of_true rfl (fieldsFit_of_not_mem (not_mem_of_findIdx? hidx)), ?_⟩
    intro a d h
    cases h
    exact htail
  | some i =>
    obtain ⟨key, value, rfl, hkey, rfl⟩ := split_of_findIdx? hidx
    rw [fieldsFit_iff hkey]
    have hlen : (key ++ 0x3D :: value).length - (key.length + 1) = value.length := by
      simp only [List.length_append, List.length_cons]
      omega
    dsimp only
    rw [hlen]
    split
    · rename_i hb
      refine ⟨iff_of_true rfl hb, fun a d h => ?_⟩
      cases h
      rw [List.drop_set_of_lt (by simp only [List.length_append, List.length_cons]; omega), htail]
    · rename_i hb
      exact ⟨iff_of_false (by simp) hb, fun a d h => by cases h⟩

/-- **What the parser accepts**: an image whose strings end, with keys and values that fit. -/
theorem parseLoop_isSome_iff (fuel : Nat) (data : List Byte) (proc : Nat)
    (hfuel : (data.drop proc).length ≤ fuel) :
    (parseLoop fuel data proc).isSome ↔ ImageFits (data.drop proc) := by
  induction fuel generalizing data proc with
  | zero =>
    have hnil : data.drop proc = [] := List.length_eq_zero_iff.mp (Nat.le_zero.mp hfuel)
    exact iff_of_false (by simp [parseLoop]) (not_imageFits_of_nul (by simp [hnil]))
  | succ fuel ih =>
    unfold parseLoop
    cases hlen : strlen data proc with
    | none => exact iff_of_false (by simp) (not_imageFits_of_nul (not_mem_of_findIdx? hlen))
    | some len =>
      obtain ⟨t, tail, hdata, ht, rfl⟩ := split_of_findIdx? hlen
      obtain ⟨hfits, hrest⟩ := parseLine_isSome_iff hdata
      rw [hdata, List.length_append, List.length_cons] at hfuel
      rw [hdata, imageFits_iff ht, ← hfits]
      simp only [Option.bind_eq_bind, Option.bind_some]
      cases hline : parseLine data proc t.length with
      | none => simp
      | some r =>
        obtain ⟨a, d⟩ := r
        have hd := hrest a d hline
        have hget : d[proc + t.length + 1]? = tail.head? := by rw [← hd, List.head?_drop]
        simp only [Option.bind_some, hget, Option.isSome_some, true_and]
        cases tail with
        | nil => simp
        | cons x rest =>
          have hih := ih d (proc + t.length + 1) (by rw [hd]; omega)
          rw [hd] at hih
          simp only [List.head?_cons, Option.bind_some]
          split
          · rename_i hx
            exact iff_of_true rfl ⟨x, rest, rfl, .inl hx⟩
          · rename_i hx
            have hmore : (∃ y rest', x :: rest = y :: rest' ∧ (y = 0 ∨ ImageFits (y :: rest'))) ↔
                ImageFits (x :: rest) := by
              constructor
              · rintro ⟨y, rest', heq, h⟩
                cases heq
                exact h.resolve_left hx
              · exact fun h => ⟨x, rest, rfl, .inr h⟩
            rw [hmore, ← hih]
            cases parseLoop fuel d (proc + t.length + 1) with
            | none => simp
            | some r => simp

end

/-! ## The data that is written -/

/-- Strings that are not empty, each with its NUL, and behind them at least one zero. -/
def Ended (data : List Byte) : Prop :=
  ∃ (ts : List (List Byte)) (n : Nat), (∀ t ∈ ts, t ≠ [] ∧ 0 ∉ t) ∧
    data = ts.flatMap (· ++ [0]) ++ List.replicate (n + 1) 0

/-- An attribute in memory: C strings, and a key that fits. -/
structure EnvAttribute.Held (a : EnvAttribute) : Prop where
  key_nul : 0 ∉ a.key
  value_nul : 0 ∉ a.value
  key_lt : a.key.length < 256

theorem EnvAttribute.Held.text_nul {a : EnvAttribute} (h : a.Held) : 0 ∉ a.text := by
  intro hmem
  rcases List.mem_append.mp hmem with hk | hv
  · exact h.key_nul hk
  · rcases List.mem_cons.mp hv with hv | hv
    · exact absurd hv (by decide)
    · exact h.value_nul hv

section
variable {attrs : List EnvAttribute} {size : Nat}

theorem render_eq_flatMap : render attrs = (attrs.map EnvAttribute.text).flatMap (· ++ [0]) := by
  rw [render, List.flatMap_map]

/-- Texts that fill the data leave no zero behind them. -/
theorem not_ended_render (hne : attrs ≠ []) (hheld : ∀ a ∈ attrs, a.Held) :
    ¬ Ended (render attrs) := by
  obtain ⟨as, a, rfl⟩ := (List.eq_nil_or_concat attrs).resolve_left hne
  rw [List.concat_eq_append] at hheld ⊢
  rintro ⟨ts, n, hts, heq⟩
  have hlast : (render as ++ a.text) = ts.flatMap (· ++ [0]) ++ List.replicate n 0 := by
    rw [List.replicate_succ', ← List.append_assoc, render, List.flatMap_append, List.flatMap_singleton,
      ← List.append_assoc] at heq
    exact List.append_cancel_right heq
  -- the left side ends with a byte that is not zero, and the right side is empty or does not
  obtain ⟨b, hb⟩ : ∃ b, a.text.getLast? = some b :=
    ⟨_, List.getLast?_eq_some_getLast (List.length_pos_iff.mp a.text_pos)⟩
  have hb0 : b ≠ 0 := fun h => (hheld a (by simp)).text_nul (h ▸ List.mem_of_getLast? hb)
  have hget : (ts.flatMap (· ++ [0]) ++ List.replicate n 0).getLast? = some b := by
    rw [← hlast, List.getLast?_append, hb]
    rfl
  cases n with
  | succ n =>
    rw [List.replicate_succ', ← List.append_assoc, List.getLast?_concat] at hget
    exact hb0 (Option.some.inj hget).symm
  | zero =>
    rw [List.replicate_zero, List.append_nil] at hget
    rcases List.eq_nil_or_concat ts with rfl | ⟨ts', t, rfl⟩
    · cases hget
    · rw [List.concat_eq_append, List.flatMap_append, List.flatMap_singleton, ← List.append_assoc,
        List.getLast?_concat] at hget
      exact hb0 (Option.some.inj hget).symm

theorem ended_padded_iff (hne : attrs ≠ []) (hheld : ∀ a ∈ attrs, a.Held)
    (hle : (render attrs).length ≤ size) :
    Ended (padded size (render attrs)) ↔ (render attrs).length < size := by
  constructor
  · intro h
    by_contra hlt
    have hfull : size - (render attrs).length = 0 := by omega
    rw [padded, hfull, List.replicate_zero, List.append_nil] at h
    exact not_ended_render hne hheld h
  · intro hlt
    refine ⟨attrs.map EnvAttribute.text, size - (render attrs).length - 1, ?_, ?_⟩
    · intro t ht
      obtain ⟨a, ha, rfl⟩ := List.mem_map.mp ht
      exact ⟨List.length_pos_iff.mp a.text_pos, (hheld a ha).text_nul⟩
    · rw [padded, ← render_eq_flatMap, Nat.sub_add_cancel (by omega)]

/-- The texts that are kept fit where all of them do. -/
theorem WritesFit.render_kept_le : ∀ {attrs : List EnvAttribute} {n : Nat}, WritesFit attrs n →
    (render (kept attrs)).length ≤ n
  | [], _, _ => Nat.zero_le _
  | [a], _, h => by
    have := h.1
    simp only [kept, render_cons, render_nil, List.length_append, List.length_cons, List.length_nil]
    omega
  | a :: b :: as, n, ⟨h, hrest⟩ => by
    have ih := WritesFit.render_kept_le hrest
    rw [kept_cons_cons]
    split
    · rename_i hs
      rwa [if_pos hs] at ih
    · rename_i hs
      rw [if_neg hs] at ih
      rw [render_cons, List.length_append, List.length_cons]
      omega

theorem render_kept_pos (hne : attrs ≠ []) : 2 ≤ (render (kept attrs)).length := by
  obtain ⟨a, as, h⟩ := List.exists_cons_of_ne_nil (kept_ne_nil hne)
  have := a.text_pos
  rw [h, render_cons, List.length_append, List.length_cons]
  omega

/-- A text that is not kept needs at most one byte more than the next one. -/
theorem writesFit_of_render_kept : ∀ {attrs : List EnvAttribute} {n : Nat},
    (render (kept attrs)).length < n → WritesFit attrs n
  | [], _, _ => trivial
  | [a], n, h => by
    simp only [kept, render_cons, render_nil, List.length_append, List.length_cons,
      List.length_nil] at h
    exact ⟨by omega, trivial⟩
  | a :: b :: as, n, h => by
    have hpos := render_kept_pos (List.cons_ne_nil b as)
    rw [kept_cons_cons] at h
    split at h
    · rename_i hs
      exact ⟨by omega, by rw [if_pos hs]; exact writesFit_of_render_kept h⟩
    · rename_i hs
      rw [render_cons, List.length_append, List.length_cons] at h
      exact ⟨by omega, by rw [if_neg hs]; exact writesFit_of_render_kept (by omega)⟩

/-- A result says that every text had room. -/
theorem revertLoop_some : ∀ {attrs : List EnvAttribute} {data d : List Byte} {o : Nat},
    revertLoop attrs data o = some d → d.length = data.length ∧ WritesFit attrs (data.length - o)
  | [], _, _, _, h => by
    cases h
    exact ⟨rfl, trivial⟩
  | a :: as, data, d, o, h => by
    unfold revertLoop at h
    dsimp only at h
    split at h
    · rename_i hfit
      obtain ⟨hd, ih⟩ := revertLoop_some h
      rw [length_overwrite (by rwa [List.length_append, List.length_singleton])] at hd ih
      refine ⟨hd, by omega, ?_⟩
      split
      · rename_i hs
        rwa [if_pos hs] at ih
      · rename_i hs
        rwa [if_neg hs, Nat.add_assoc, ← Nat.sub_sub] at ih
    · cases h

/-- **What `env_revert_attribute` needs**: the data ends as it should exactly if the texts that are
kept leave a byte. -/
theorem envRevertAttribute_ended_iff (hne : attrs ≠ []) (hheld : ∀ a ∈ attrs, a.Held) :
    (∃ d, envRevertAttribute size attrs = some d ∧ Ended d) ↔ (render (kept attrs)).length < size := by
  have hkept : ∀ a ∈ kept attrs, a.Held := fun a ha => hheld a (kept_subset a ha)
  constructor
  · rintro ⟨d, hd, hended⟩
    have hfit := (revertLoop_some hd).2
    rw [List.length_replicate, Nat.sub_zero] at hfit
    rw [envRevertAttribute_eq hne hfit] at hd
    cases hd
    exact (ended_padded_iff (kept_ne_nil hne) hkept hfit.render_kept_le).mp hended
  · intro hlt
    exact ⟨_, envRevertAttribute_eq hne (writesFit_of_render_kept hlt),
      (ended_padded_iff (kept_ne_nil hne) hkept hlt.le).mpr hlt⟩

end

/-! ## Updates -/

/-- The name and the value are C strings. -/
def Call.Strings (c : Call) : Prop := 0 ∉ c.name ∧ 0 ∉ c.value

/-- A call as a step; the state is gone when a copy or a write went outside of its buffer. -/
def updateStep (s : Option Env) (c : Call) : Option Env × Option Int :=
  let r := s.bind fun e => bootenvUpdate e c
  (r.map (·.1), r.map (·.2))

/-- Every copy and write of the call stays inside, and data that it writes ends with an empty
string. -/
def SafeCall (s : Option Env) (c : Call) : Prop :=
  ∃ e e' ret, s = some e ∧ bootenvUpdate e c = some (e', ret) ∧
    (updates e c = true → Ended e'.data)

/-- Reading the image and every call of the run is safe. -/
def SafeRun (varPrefix image : List Byte) (calls : List Call) : Prop :=
  ∃ e, bootenvInit varPrefix image = some e ∧ Each SafeCall updateStep (some e) calls

/-- A value that is not the one in memory fits with its key, and the texts of all attributes leave
a byte of the data. -/
def CallFits (s : Option Env) (c : Call) : Prop :=
  ∀ e key, s = some e → varibleName e c.name = some key → c.value ≠ valueOf e.attrs key →
    key.length < 256 ∧ c.value.length < 1024 ∧
      (render (kept (setAttr key c.value e.attrs))).length < e.data.length

/-- What is so between calls. -/
def Between (size : Nat) (s : Option Env) : Prop :=
  ∃ e, s = some e ∧ e.initDone = true ∧ e.attrs ≠ [] ∧ (∀ a ∈ e.attrs, a.Held) ∧
    e.data.length = size

theorem bootenvSetValue_some_iff {key value : List Byte} {attrs : List EnvAttribute}
    (hheld : ∀ a ∈ attrs, a.Held) :
    (bootenvSetValue key value true attrs).isSome ↔ key.length < 256 ∧ value.length < 1024 := by
  induction attrs with
  | nil =>
    unfold bootenvSetValue
    rw [if_pos rfl]
    split
    · exact iff_of_true rfl ‹_›
    · exact iff_of_false (by simp) ‹_›
  | cons a as ih =>
    unfold bootenvSetValue
    split
    · rename_i hkey
      have := (hheld a List.mem_cons_self).key_lt
      rw [hkey] at this
      split
      · exact iff_of_true rfl ⟨this, ‹_›⟩
      · exact iff_of_false (by simp) fun h => absurd h.2 ‹_›
    · rw [Option.isSome_map, ih fun x hx => hheld x (List.mem_cons_of_mem _ hx)]

section
variable {e e' : Env} {c : Call} {key : List Byte} {ret : Int}

/-- A call that takes a value which memory does not have. -/
theorem bootenvUpdate_eq (hdone : e.initDone = true) (hname : varibleName e c.name = some key)
    (hvalue : c.value ≠ valueOf e.attrs key) :
    bootenvUpdate e c = (bootenvSetValue key c.value true e.attrs).bind fun r =>
      saveLoop (List.ofFn c.dev) { e with attrs := r.1 } (-1) := by
  have hget : (bootenvGetValue e key).getD [] = valueOf e.attrs key := by
    simp [bootenvGetValue, hdone, valueOf]
  unfold bootenvUpdate
  simp only [hdone, hname, hget, if_neg hvalue, Bool.not_true, Bool.false_eq_true, if_false]
  rfl

/-- A call that changes nothing. -/
theorem bootenvUpdate_same (hdone : e.initDone = true) (h : updates e c = false) :
    ∃ ret, bootenvUpdate e c = some (e, ret) := by
  unfold updates at h
  unfold bootenvUpdate
  rw [hdone, if_neg (by decide)]
  cases hname : varibleName e c.name with
  | none => exact ⟨-2, rfl⟩
  | some key =>
    rw [hname] at h
    have hget : (bootenvGetValue e key).getD [] = valueOf e.attrs key := by
      simp [bootenvGetValue, hdone, valueOf]
    have hvalue : c.value = valueOf e.attrs key := by simpa using h
    exact ⟨0, if_pos (hvalue.trans hget.symm)⟩

/-- The first attempt writes the data. -/
theorem saveLoop_none (hrev : envRevertAttribute e.data.length e.attrs = none) :
    saveLoop (List.ofFn c.dev) e (-1) = none := by
  rw [List.ofFn_succ, saveLoop, if_pos (by decide), saveBootenv, hrev]
  rfl

/-- **A save**: the data is written, and nothing else of memory changes. -/
theorem saveLoop_some (h : saveLoop (List.ofFn c.dev) e (-1) = some (e', ret)) :
    ∃ d, envRevertAttribute e.data.length e.attrs = some d ∧ d.length = e.data.length ∧
      e'.data = d ∧ e'.attrs = e.attrs ∧ e'.initDone = e.initDone := by
  cases hrev : envRevertAttribute e.data.length e.attrs with
  | none =>
    rw [saveLoop_none hrev] at h
    cases h
  | some d =>
    have hd : d.length = e.data.length := by
      have := (revertLoop_some hrev).1
      rwa [List.length_replicate] at this
    obtain ⟨e₁, ret₁, h1, -, h3, h4, h5, -⟩ := saveLoop_spec (List.ofFn c.dev)
      (show (-1 : Int) < 0 by decide) hrev hd
    rw [h] at h1
    cases h1
    exact ⟨d, rfl, hd, h5 (.inl (by simp)), h4, h3⟩

theorem varibleName_nul (hnul : 0 ∉ c.name) (hname : varibleName e c.name = some key) : 0 ∉ key := by
  unfold varibleName at hname
  split at hname
  · cases hname
    decide
  · split at hname
    · cases hname
      exact fun h => hnul (List.mem_of_mem_drop h)
    · cases hname

/-- What a call has written. -/
theorem bootenvUpdate_writes (hdone : e.initDone = true) (hheld : ∀ a ∈ e.attrs, a.Held)
    (hname : varibleName e c.name = some key) (hvalue : c.value ≠ valueOf e.attrs key)
    (h : bootenvUpdate e c = some (e', ret)) :
    key.length < 256 ∧ c.value.length < 1024 ∧
      envRevertAttribute e.data.length (setAttr key c.value e.attrs) = some e'.data ∧
      e'.data.length = e.data.length ∧ e'.attrs = setAttr key c.value e.attrs ∧
      e'.initDone = true := by
  rw [bootenvUpdate_eq hdone hname hvalue] at h
  obtain ⟨r, hset, h⟩ := Option.bind_eq_some_iff.mp h
  obtain ⟨hkl, hvl⟩ := (bootenvSetValue_some_iff hheld).mp (Option.isSome_iff_exists.mpr ⟨r, hset⟩)
  obtain ⟨ret', hset'⟩ := bootenvSetValue_eq hkl hvl e.attrs
  rw [hset] at hset'
  cases hset'
  obtain ⟨d, hrev, hlen, rfl, hattrs, hinit⟩ := saveLoop_some h
  exact ⟨hkl, hvl, hrev, hlen, hattrs, hinit.trans hdone⟩

/-- **One update**: its data ends as it should exactly if all of it fits. -/
theorem bootenvUpdate_ended_iff (hdone : e.initDone = true) (hheld : ∀ a ∈ e.attrs, a.Held)
    (hstr : c.Strings) (hname : varibleName e c.name = some key)
    (hvalue : c.value ≠ valueOf e.attrs key) :
    (∃ e' ret, bootenvUpdate e c = some (e', ret) ∧ Ended e'.data) ↔
      key.length < 256 ∧ c.value.length < 1024 ∧
        (render (kept (setAttr key c.value e.attrs))).length < e.data.length := by
  have hheld' (hkl : key.length < 256) : ∀ a ∈ setAttr key c.value e.attrs, a.Held :=
    forall_mem_setAttr hheld ⟨varibleName_nul hstr.1 hname, hstr.2, hkl⟩
  constructor
  · rintro ⟨e', ret, h, hended⟩
    obtain ⟨hkl, hvl, hrev, -⟩ := bootenvUpdate_writes hdone hheld hname hvalue h
    exact ⟨hkl, hvl,
      (envRevertAttribute_ended_iff setAttr_ne_nil (hheld' hkl)).mp ⟨_, hrev, hended⟩⟩
  · rintro ⟨hkl, hvl, hfit⟩
    obtain ⟨d, hrev, hended⟩ :=
      (envRevertAttribute_ended_iff setAttr_ne_nil (hheld' hkl)).mpr hfit
    have hlen : d.length = e.data.length := by
      have := (revertLoop_some hrev).1
      rwa [List.length_replicate] at this
    obtain ⟨r, hset⟩ := bootenvSetValue_eq hkl hvl e.attrs
    obtain ⟨e', ret, h1, -, -, -, h5, -⟩ := saveLoop_spec (List.ofFn c.dev)
      (e := { e with attrs := setAttr key c.value e.attrs }) (show (-1 : Int) < 0 by decide) hrev hlen
    refine ⟨e', ret, ?_, ?_⟩
    · rw [bootenvUpdate_eq hdone hname hvalue, hset]
      exact h1
    · rw [h5 (.inl (by simp))]
      exact hended

end

/-! ## Runs -/

section
variable {size : Nat} {s : Option Env} {c : Call}

theorem updates_iff {e : Env} :
    updates e c = true ↔ ∃ key, varibleName e c.name = some key ∧ c.value ≠ valueOf e.attrs key := by
  unfold updates
  cases varibleName e c.name with
  | none => simp
  | some key => simp

theorem safeCall_iff (hs : Between size s) (hstr : c.Strings) : SafeCall s c ↔ CallFits s c := by
  obtain ⟨e, rfl, hdone, -, hheld, -⟩ := hs
  constructor
  · rintro ⟨e₁, e', ret, he, h, hended⟩ e₂ key he₂ hname hvalue
    cases he
    cases he₂
    exact (bootenvUpdate_ended_iff hdone hheld hstr hname hvalue).mp
      ⟨e', ret, h, hended (updates_iff.mpr ⟨key, hname, hvalue⟩)⟩
  · intro hfits
    cases hup : updates e c with
    | false =>
      obtain ⟨ret, h⟩ := bootenvUpdate_same hdone hup
      exact ⟨e, e, ret, rfl, h, fun h => absurd h (by simp [hup])⟩
    | true =>
      obtain ⟨key, hname, hvalue⟩ := updates_iff.mp hup
      obtain ⟨e', ret, h, hended⟩ := (bootenvUpdate_ended_iff hdone hheld hstr hname hvalue).mpr
        (hfits e key rfl hname hvalue)
      exact ⟨e, e', ret, rfl, h, fun _ => hended⟩

theorem Between.step (hs : Between size s) (hstr : c.Strings) (hsafe : SafeCall s c) :
    Between size (updateStep s c).1 := by
  obtain ⟨e, rfl, hdone, hne, hheld, hlen⟩ := hs
  obtain ⟨e₁, e', ret, he, h, -⟩ := hsafe
  cases he
  have hstep : (updateStep (some e) c).1 = some e' := by simp [updateStep, h]
  rw [hstep]
  cases hup : updates e c with
  | false =>
    obtain ⟨ret', h'⟩ := bootenvUpdate_same hdone hup
    rw [h] at h'
    cases h'
    exact ⟨e, rfl, hdone, hne, hheld, hlen⟩
  | true =>
    obtain ⟨key, hname, hvalue⟩ := updates_iff.mp hup
    obtain ⟨hkl, -, -, hlen', hattrs, hinit⟩ := bootenvUpdate_writes hdone hheld hname hvalue h
    refine ⟨e', rfl, hinit, ?_, ?_, hlen'.trans hlen⟩
    · rw [hattrs]
      exact setAttr_ne_nil
    · rw [hattrs]
      exact forall_mem_setAttr hheld ⟨varibleName_nul hstr.1 hname, hstr.2, hkl⟩

end

/-- The first state. -/
theorem between_init {varPrefix image : List Byte} {e : Env}
    (h : bootenvInit varPrefix image = some e) : Between image.length (some e) := by
  obtain ⟨⟨attrs, d⟩, hp, h⟩ := Option.bind_eq_some_iff.mp h
  cases h
  obtain ⟨hne, hok⟩ := parseLoop_ok hp
  refine ⟨_, rfl, rfl, hne, fun a ha => ?_, parseLoop_length hp⟩
  exact ⟨(hok a ha).key_nul, (hok a ha).value_nul, Nat.lt_succ_of_le (hok a ha).key_le⟩

theorem bootenvInit_isSome_iff (varPrefix image : List Byte) :
    (bootenvInit varPrefix image).isSome ↔ ImageFits image := by
  have h := parseLoop_isSome_iff image.length image 0 le_rfl
  rw [List.drop_zero] at h
  rw [← h, bootenvInit, envParseAttribute]
  cases parseLoop image.length image 0 with
  | none => rfl
  | some r => rfl

/-- Every update of the run fits, in the state in which it comes. -/
def CallsFit (varPrefix image : List Byte) (calls : List Call) : Prop :=
  ∀ e, bootenvInit varPrefix image = some e → Each CallFits updateStep (some e) calls

/-- **When nothing overflows**: exactly for an image whose strings end and fit, and updates that
each fit with all that is in memory. -/
theorem safeRun_iff (varPrefix image : List Byte) (calls : List Call)
    (hcalls : ∀ c ∈ calls, c.Strings) :
    SafeRun varPrefix image calls ↔ ImageFits image ∧ CallsFit varPrefix image calls := by
  rw [← bootenvInit_isSome_iff varPrefix image]
  constructor
  · rintro ⟨e, he, hsafe⟩
    refine ⟨by rw [he]; rfl, fun e' he' => ?_⟩
    cases he.symm.trans he'
    refine each_inv (fun s c hs hc => ?_) (between_init he) (hsafe.and_forall_mem hcalls)
    exact ⟨hs.step hc.2 hc.1, (safeCall_iff hs hc.2).mp hc.1⟩
  · rintro ⟨himage, hfits⟩
    obtain ⟨e, he⟩ := Option.isSome_iff_exists.mp himage
    refine ⟨e, he, ?_⟩
    refine each_inv (fun s c hs hc => ?_) (between_init he) ((hfits e he).and_forall_mem hcalls)
    have hsafe := (safeCall_iff hs hc.2).mpr hc.1
    exact ⟨hs.step hc.2 hsafe, hsafe⟩

/-- `a=1`. -/
def attrA1 : EnvAttribute := ⟨bytes "a", bytes "1"⟩

/-- The image of `a=1`, with `ENV_SIZE` bytes. -/
def envImage : List Byte := padded 65532 (render [attrA1])

theorem length_envImage : envImage.length = 65532 := by
  rw [envImage, padded, List.length_append, List.length_replicate]
  decide

/-- What it is read as. -/
theorem bootenvInit_envImage : ∃ data,
    bootenvInit (bytes "p.") envImage = some ⟨bytes "p.", true, [attrA1], data, envImage⟩ := by
  have hok : attrA1.Ok := ⟨by decide, by decide, by decide, by decide, by decide⟩
  have hfit : (render [attrA1]).length < 65532 := by decide
  obtain ⟨data, h⟩ := envParseAttribute_padded (List.cons_ne_nil attrA1 [])
    (List.forall_mem_singleton.mpr hok) hfit
  exact ⟨data, by rw [bootenvInit, envImage, h]; rfl⟩

theorem safeRun_setA2 : SafeRun (bytes "p.") envImage [setA2 fun _ => .wrote 65536] := by
  have hstr : ∀ c ∈ [setA2 fun _ => .wrote 65536], c.Strings :=
    List.forall_mem_singleton.mpr ⟨(by decide : 0 ∉ bytes "p.a"), (by decide : 0 ∉ bytes "2")⟩
  obtain ⟨data, hinit⟩ := bootenvInit_envImage
  refine (safeRun_iff (bytes "p.") envImage [setA2 fun _ => .wrote 65536] hstr).mpr
    ⟨(bootenvInit_isSome_iff _ _).mp (by rw [hinit]; rfl), fun e he => ⟨?_, trivial⟩⟩
  obtain ⟨e', he', -, -, -, hlen⟩ := between_init he
  cases he'
  cases hinit.symm.trans he
  rintro e key he hname hvalue
  cases he
  cases (varibleName_setA2 rfl).symm.trans hname
  refine ⟨by decide, (by decide : (bytes "2").length < 1024), ?_⟩
  rw [hlen, length_envImage]
  exact (by decide : (render (kept (setAttr (bytes "a") (bytes "2") [attrA1]))).length < 65532)

/-- A value of 1024 bytes. -/
def setLong : Call := ⟨bytes "p.a", List.replicate 1024 0x78, fun _ => .wrote 65536⟩

/-- **A long value** is copied beyond its field. -/
theorem safeRun_long : setLong.Strings ∧ ¬ SafeRun (bytes "p.") envImage [setLong] := by
  refine ⟨⟨(by decide : 0 ∉ bytes "p.a"), fun h => ?_⟩, ?_⟩
  · exact absurd (List.eq_of_mem_replicate h) (by decide)
  · rintro ⟨e, he, ⟨e₁, e', ret, he₁, h, -⟩, -⟩
    cases he₁
    obtain ⟨data, hinit⟩ := bootenvInit_envImage
    obtain ⟨e₂, he₂, hdone, -, hheld, -⟩ := between_init he
    cases he₂
    cases hinit.symm.trans he
    have hlen : setLong.value.length = 1024 := List.length_replicate
    have hvalue : setLong.value ≠ valueOf [attrA1] (bytes "a") := by
      intro heq
      rw [heq] at hlen
      exact absurd hlen (by decide)
    have := (bootenvUpdate_writes hdone hheld (varibleName_setA2 rfl) hvalue h).2.1
    omega

end VendorAmlogic.BootEnv
