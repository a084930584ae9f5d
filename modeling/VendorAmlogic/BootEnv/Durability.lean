import VendorAmlogic.BootEnv.Update

/-!
# The U-Boot environment: what is on the device

`bootenv_update` returns 0 when it has saved, when memory has the value
already, and when the `write` of a save has taken only a part of the image.
Along a run, `Watch` keeps the image that was last written whole, or read, and
the attributes as they were then: what memory has beyond these is lost with the
power.
-/

namespace VendorAmlogic.BootEnv

open VendorAmlogic.Lib

/-! ## Attributes read from an image -/

section
variable {data d : List Byte} {proc len : Nat} {a : EnvAttribute}

theorem parseLine_ok (hlen : strlen data proc = some len) (h : parseLine data proc len = some (a, d)) :
    a.Ok := by
  have hnul : 0 ∉ (data.drop proc).take len := by
    obtain ⟨h1, -, h2⟩ := List.findIdx?_eq_some_iff_getElem.mp hlen
    intro hmem
    obtain ⟨i, hi, hx⟩ := List.getElem_of_mem hmem
    rw [List.length_take] at hi
    rw [List.getElem_take] at hx
    have := h2 i (by omega)
    simp [hx] at this
  unfold parseLine at h
  dsimp only at h
  split at h
  · rename_i i hi
    obtain ⟨h1, h2, h3⟩ := List.findIdx?_eq_some_iff_getElem.mp hi
    split at h
    · rename_i hb
      cases h
      have hll := List.length_take_le len (data.drop proc)
      refine ⟨fun hm => hnul (List.mem_of_mem_take hm), fun hm => ?_,
        fun hm => hnul (List.mem_of_mem_drop hm), ?_, ?_⟩
      · obtain ⟨j, hj, hx⟩ := List.getElem_of_mem hm
        rw [List.length_take] at hj
        rw [List.getElem_take] at hx
        have := h3 j (by omega)
        simp [hx] at this
      · exact Nat.le_trans (List.length_take_le i _) (by omega)
      · rw [List.length_drop]
        omega
    · cases h
  · cases h
    exact ⟨List.not_mem_nil, List.not_mem_nil, List.not_mem_nil, by simp, by simp⟩

theorem parseLoop_ok {fuel : Nat} {attrs : List EnvAttribute}
    (h : parseLoop fuel data proc = some (attrs, d)) : attrs ≠ [] ∧ ∀ a ∈ attrs, a.Ok := by
  induction fuel generalizing data proc attrs d with
  | zero => cases h
  | succ fuel ih =>
    unfold parseLoop at h
    obtain ⟨len, hlen, h⟩ := Option.bind_eq_some_iff.mp h
    obtain ⟨⟨b, d1⟩, hline, h⟩ := Option.bind_eq_some_iff.mp h
    have hb := parseLine_ok hlen hline
    obtain ⟨c, -, h⟩ := Option.bind_eq_some_iff.mp h
    split at h
    · cases h
      exact ⟨List.cons_ne_nil _ _, List.forall_mem_singleton.2 hb⟩
    · obtain ⟨⟨as, d2⟩, hrest, h⟩ := Option.bind_eq_some_iff.mp h
      cases h
      exact ⟨List.cons_ne_nil _ _, List.forall_mem_cons.2 ⟨hb, (ih hrest).2⟩⟩

theorem parseLine_length (h : parseLine data proc len = some (a, d)) : d.length = data.length := by
  unfold parseLine at h
  dsimp only at h
  split at h
  · split at h
    · cases h
      exact List.length_set
    · cases h
  · cases h
    rfl

/-- The parser overwrites bytes of the data and adds none. -/
theorem parseLoop_length {fuel : Nat} {attrs : List EnvAttribute}
    (h : parseLoop fuel data proc = some (attrs, d)) : d.length = data.length := by
  induction fuel generalizing data proc attrs d with
  | zero => cases h
  | succ fuel ih =>
    unfold parseLoop at h
    obtain ⟨len, -, h⟩ := Option.bind_eq_some_iff.mp h
    obtain ⟨⟨b, d1⟩, hline, h⟩ := Option.bind_eq_some_iff.mp h
    have hd1 := parseLine_length hline
    obtain ⟨c, -, h⟩ := Option.bind_eq_some_iff.mp h
    split at h
    · cases h
      exact hd1
    · obtain ⟨⟨as, d2⟩, hrest, h⟩ := Option.bind_eq_some_iff.mp h
      cases h
      exact (ih hrest).trans hd1

end

/-! ## Saving -/

/-- What the `write` of an attempt returns. -/
def SaveResult.count? : SaveResult → Option Nat
  | .wrote n => some n
  | _ => none

/-- The result of the `write` that ends the attempts. -/
def taken (rs : List SaveResult) : Option Nat := rs.findSome? SaveResult.count?

/-- **The attempts to save**: the first `write` that does not fail ends them, and puts the front
of the image on the device. -/
theorem saveLoop_spec {d : List Byte} (rs : List SaveResult) {e : Env} {ret : Int} (hret : ret < 0)
    (hrev : envRevertAttribute e.data.length e.attrs = some d) (hd : d.length = e.data.length) :
    ∃ e' ret', saveLoop rs e ret = some (e', ret') ∧ e'.varPrefix = e.varPrefix ∧
      e'.initDone = e.initDone ∧ e'.attrs = e.attrs ∧ (rs ≠ [] ∨ e.data = d → e'.data = d) ∧
      ((∃ n, taken rs = some n ∧ ret' = 0 ∧
          e'.disk = d.take (n - crcSize) ++ e.disk.drop (n - crcSize)) ∨
        (taken rs = none ∧ ret' < 0 ∧ e'.disk = e.disk)) := by
  induction rs generalizing e ret with
  | nil =>
    refine ⟨e, ret, rfl, rfl, rfl, rfl, fun h => ?_, .inr ⟨rfl, hret, rfl⟩⟩
    exact h.resolve_left fun h => h rfl
  | cons r rs ih =>
    have hrev' : envRevertAttribute ({ e with data := d } : Env).data.length e.attrs = some d := by
      rw [← hrev, hd]
    unfold saveLoop
    rw [if_pos hret]
    cases r with
    | wrote n =>
      refine ⟨{ e with data := d, disk := d.take (n - crcSize) ++ e.disk.drop (n - crcSize) }, 0, ?_,
        rfl, rfl, rfl, fun _ => rfl, .inl ⟨n, rfl, rfl, rfl⟩⟩
      simp only [saveBootenv, hrev, Option.bind_eq_bind, Option.bind_some]
      cases rs with
      | nil => rfl
      | cons r' rs => rfl
    | openFails =>
      obtain ⟨e', ret', h1, h2, h3, h4, h5, h6⟩ :=
        ih (e := { e with data := d }) (show (-1 : Int) < 0 by decide) hrev' rfl
      refine ⟨e', ret', ?_, h2, h3, h4, fun _ => h5 (.inr rfl), h6⟩
      simpa [saveBootenv, hrev] using h1
    | writeFails =>
      obtain ⟨e', ret', h1, h2, h3, h4, h5, h6⟩ :=
        ih (e := { e with data := d }) (show (-3 : Int) < 0 by decide) hrev' rfl
      refine ⟨e', ret', ?_, h2, h3, h4, fun _ => h5 (.inr rfl), h6⟩
      simpa [saveBootenv, hrev] using h1

/-- A `write` of the whole image leaves nothing of the old one. -/
theorem take_append_drop_whole {d old : List Byte} {n : Nat} (hl : old.length = d.length)
    (hn : crcSize + d.length ≤ n) : d.take (n - crcSize) ++ old.drop (n - crcSize) = d := by
  rw [List.take_of_length_le (by omega), List.drop_of_length_le (by omega), List.append_nil]

/-! ## Runs -/

/-- The value is not the one memory has. -/
def updates (e : Env) (c : Call) : Bool :=
  match varibleName e c.name with
  | none => false
  | some key => c.value ≠ valueOf e.attrs key

/-- The call writes the whole image to the device. -/
def saves (e : Env) (c : Call) : Bool :=
  updates e c && (taken (List.ofFn c.dev)).any fun n => crcSize + e.data.length ≤ n

/-- The call writes a part of the image to the device. -/
def tears (e : Env) (c : Call) : Bool :=
  updates e c && (taken (List.ofFn c.dev)).any fun n => n < crcSize + e.data.length

/-- The environment along a run; the image that was last written whole, or read, and its
attributes; whether a save has written it, and whether a short `write` came after it. -/
structure Watch where
  env : Env
  image : List Byte
  saved : List EnvAttribute
  written : Bool
  torn : Bool

/-- Behind `bootenv_init`. -/
def Watch.start (e : Env) : Watch := ⟨e, e.disk, e.attrs, false, false⟩

def Watch.next (w : Watch) (c : Call) (e : Env) : Watch :=
  if saves w.env c then ⟨e, e.disk, e.attrs, true, false⟩
  else { w with env := e, torn := w.torn || tears w.env c }

/-- The name is the prefix and a variable, and all strings fit. -/
structure Allowed (e : Env) (c : Call) (key : List Byte) : Prop where
  name : c.name = e.varPrefix ++ key
  key_ne : key ≠ []
  key_eq : 0x3D ∉ key
  name_nul : 0 ∉ c.name
  value_nul : 0 ∉ c.value
  key_le : key.length ≤ 255
  value_le : c.value.length ≤ 1023
  fits : ∀ k, varibleName e c.name = some k → (render (setAttr k c.value e.attrs)).length < e.data.length

/-- The states of the runs from `w`. -/
inductive Reach (w : Watch) : Watch → Prop
  | init : Reach w w
  | step {v : Watch} {c : Call} {key : List Byte} {e : Env} {ret : Int} (hr : Reach w v)
      (hc : Allowed v.env c key) (h : bootenvUpdate v.env c = some (e, ret)) : Reach w (v.next c e)

/-- The variable has the value in the image that was last written whole, or read. -/
def Stored (w : Watch) (key value : List Byte) : Prop :=
  (envParseAttribute w.image).map (fun r => valueOf r.1 key) = some value

instance (w : Watch) (key value : List Byte) : Decidable (Stored w key value) :=
  inferInstanceAs (Decidable (_ = _))

/-- What the image is read as. -/
def Watch.onDisk (w : Watch) : List EnvAttribute := if w.written then kept w.saved else w.saved

structure WatchInv (w : Watch) : Prop where
  initDone : w.env.initDone = true
  ok : ∀ a ∈ w.env.attrs, a.Ok
  length : w.env.disk.length = w.env.data.length
  image : ∃ d, envParseAttribute w.image = some (w.onDisk, d)
  whole : w.torn = false → w.env.disk = w.image

theorem watchInv_start {varPrefix image : List Byte} {e : Env}
    (h : bootenvInit varPrefix image = some e) : WatchInv (.start e) := by
  obtain ⟨⟨attrs, d⟩, hp, h⟩ := Option.bind_eq_some_iff.mp h
  cases h
  exact ⟨rfl, (parseLoop_ok hp).2, (parseLoop_length hp).symm, ⟨d, hp⟩, fun _ => rfl⟩

section
variable {w : Watch} {c : Call} {key : List Byte}

/-- The variable the code takes is one that may be set. -/
theorem Allowed.varible (hc : Allowed w.env c key) {k : List Byte}
    (h : varibleName w.env c.name = some k) : EnvAttribute.Ok ⟨k, c.value⟩ := by
  have hnul : 0 ∉ key := fun hm => hc.name_nul (by rw [hc.name]; exact List.mem_append_right _ hm)
  unfold varibleName at h
  split at h
  · cases h
    exact ⟨show 0 ∉ bytes "bootcmd" by decide, show 0x3D ∉ bytes "bootcmd" by decide, hc.value_nul,
      show (bytes "bootcmd").length ≤ 255 by decide, hc.value_le⟩
  · split at h
    · cases h
      rw [hc.name, List.drop_left]
      exact ⟨hnul, hc.key_eq, hc.value_nul, hc.key_le, hc.value_le⟩
    · cases h

/-- How a call can end. -/
inductive Ends (w : Watch) (c : Call) : Env → Int → Prop
  | refused {ret : Int} (h : varibleName w.env c.name = none) (hr : ret ≠ 0) : Ends w c w.env ret
  | same {k : List Byte} (h : varibleName w.env c.name = some k)
      (hv : c.value = valueOf w.env.attrs k) : Ends w c w.env 0
  | saved {k d : List Byte} {e : Env} (h : varibleName w.env c.name = some k)
      (hs : saves w.env c = true) (ha : e.attrs = setAttr k c.value w.env.attrs)
      (hi : e.initDone = true) (hl : e.disk.length = e.data.length)
      (hd : envParseAttribute e.disk = some (kept e.attrs, d)) : Ends w c e 0
  | short {k : List Byte} {e : Env} (h : varibleName w.env c.name = some k)
      (hs : saves w.env c = false) (ht : tears w.env c = true)
      (ha : e.attrs = setAttr k c.value w.env.attrs) (hi : e.initDone = true)
      (hl : e.disk.length = e.data.length) : Ends w c e 0
  | failed {k : List Byte} {e : Env} {ret : Int} (h : varibleName w.env c.name = some k)
      (hs : saves w.env c = false) (ht : tears w.env c = false)
      (ha : e.attrs = setAttr k c.value w.env.attrs) (hi : e.initDone = true)
      (hl : e.disk.length = e.data.length) (hd : e.disk = w.env.disk) (hr : ret < 0) : Ends w c e ret

/-- **One call**. -/
theorem WatchInv.update (hw : WatchInv w) (hc : Allowed w.env c key) :
    ∃ e ret, bootenvUpdate w.env c = some (e, ret) ∧ Ends w c e ret := by
  cases hn : varibleName w.env c.name with
  | none => exact ⟨w.env, -2, by simp [bootenvUpdate, hw.initDone, hn], .refused hn (by decide)⟩
  | some k =>
    have hget : (bootenvGetValue w.env k).getD [] = valueOf w.env.attrs k := by
      simp [bootenvGetValue, hw.initDone, valueOf]
    by_cases hv : c.value = valueOf w.env.attrs k
    · refine ⟨w.env, 0, ?_, .same hn hv⟩
      simp only [bootenvUpdate, hw.initDone, hn, hget]
      simp [hv]
    · have hk := hc.varible hn
      have hkl : k.length < 256 := Nat.lt_succ_of_le hk.key_le
      have hvl : c.value.length < 1024 := Nat.lt_succ_of_le hk.value_le
      have hdone : (! w.env.initDone) = false := by rw [hw.initDone]; rfl
      obtain ⟨r, hset⟩ := bootenvSetValue_eq hkl hvl w.env.attrs
      obtain ⟨d, d', hrev, hdl, hparse⟩ := parse_revert setAttr_ne_nil (forall_mem_setAttr hw.ok hk)
        (hc.fits k hn)
      obtain ⟨e, ret, h1, -, h3, h4, h5, h6⟩ := saveLoop_spec (List.ofFn c.dev)
        (e := { w.env with attrs := setAttr k c.value w.env.attrs }) (show (-1 : Int) < 0 by decide)
        hrev hdl
      have hdata : e.data = d := h5 (.inl (by simp))
      have hlen : w.env.disk.length = d.length := hw.length.trans hdl.symm
      have hupd : bootenvUpdate w.env c = some (e, ret) := by
        simp only [bootenvUpdate, hdone, hn, hget, if_neg hv, hset, Option.bind_eq_bind,
          Option.bind_some, Bool.false_eq_true, if_false]
        exact h1
      have hu : updates w.env c = true := by simp [updates, hn, hv]
      have hi := h3.trans hw.initDone
      rcases h6 with ⟨n, htaken, rfl, hdisk⟩ | ⟨htaken, hneg, hdisk⟩
      · have hl : e.disk.length = e.data.length := by
          rw [hdisk, hdata, List.length_append, List.length_take, List.length_drop, hlen]
          omega
        by_cases hn' : crcSize + w.env.data.length ≤ n
        · rw [take_append_drop_whole hlen (by omega)] at hdisk
          refine ⟨e, 0, hupd, .saved hn ?_ h4 hi hl (d := d') ?_⟩
          · rw [saves, hu, htaken]
            simpa using hn'
          · rw [hdisk, hparse, h4]
        · refine ⟨e, 0, hupd, .short hn ?_ ?_ h4 hi hl⟩
          · rw [saves, hu, htaken]
            simpa using hn'
          · rw [tears, hu, htaken]
            simpa using hn'
      · refine ⟨e, ret, hupd, .failed hn ?_ ?_ h4 hi ?_ hdisk hneg⟩
        · rw [saves, hu, htaken]
          rfl
        · rw [tears, hu, htaken]
          rfl
        · rw [hdisk, hdata]
          exact hlen

theorem WatchInv.next {e : Env} {ret : Int} (hw : WatchInv w) (hc : Allowed w.env c key)
    (h : Ends w c e ret) : WatchInv (w.next c e) := by
  cases h with
  | refused h hr =>
    have hs : saves w.env c = false := by simp [saves, updates, h]
    have ht : tears w.env c = false := by simp [tears, updates, h]
    simpa [Watch.next, hs, ht] using hw
  | same h hv =>
    have hs : saves w.env c = false := by simp [saves, updates, h, hv]
    have ht : tears w.env c = false := by simp [tears, updates, h, hv]
    simpa [Watch.next, hs, ht] using hw
  | saved h hs ha hi hl hd =>
    rw [Watch.next, if_pos hs]
    refine ⟨hi, ?_, hl, ⟨_, hd⟩, fun _ => rfl⟩
    rw [ha]
    exact forall_mem_setAttr hw.ok (hc.varible h)
  | short h hs ht ha hi hl =>
    rw [Watch.next, if_neg (by simp [hs])]
    refine ⟨hi, ?_, hl, hw.image, fun hn => ?_⟩
    · rw [ha]
      exact forall_mem_setAttr hw.ok (hc.varible h)
    · simp [ht] at hn
  | failed h hs ht ha hi hl hd hr =>
    rw [Watch.next, if_neg (by simp [hs])]
    refine ⟨hi, ?_, hl, hw.image, fun hn => ?_⟩
    · rw [ha]
      exact forall_mem_setAttr hw.ok (hc.varible h)
    · exact hd.trans (hw.whole (by simpa [ht] using hn))

theorem WatchInv.reach {v : Watch} (hw : WatchInv w) (hr : Reach w v) : WatchInv v := by
  induction hr with
  | init => exact hw
  | step hr hc h ih =>
    obtain ⟨e, ret, h', he⟩ := ih.update hc
    rw [h] at h'
    cases h'
    exact ih.next hc he

/-- `ubootenv.var.bootcmd` is taken for `bootcmd` also where the prefix is another one. -/
def Aliased (e : Env) (c : Call) : Prop :=
  c.name = bytes "ubootenv.var.bootcmd" ∧ e.varPrefix ≠ bytes "ubootenv.var."

/-- A value that is saved by a `write` of the whole image is not hidden. A value that memory has,
or that a short `write` was to save, is the one that was saved last, and was not hidden then. -/
def Sound (w : Watch) (c : Call) (key : List Byte) : Prop :=
  if saves w.env c then ¬ Hidden (setAttr key c.value w.env.attrs) key
  else valueOf w.saved key = c.value ∧ (w.written = true → ¬ Hidden w.saved key)

theorem Allowed.varible_eq (hc : Allowed w.env c key) (hal : ¬ Aliased w.env c) {k : List Byte}
    (h : varibleName w.env c.name = some k) : k = key := by
  unfold varibleName at h
  split at h
  · rename_i hname
    have hp : w.env.varPrefix = bytes "ubootenv.var." := by
      by_contra hp
      exact hal ⟨hname, hp⟩
    have happ : bytes "ubootenv.var." ++ key = bytes "ubootenv.var." ++ bytes "bootcmd" := by
      have hn := hc.name
      rw [hname, hp] at hn
      exact hn.symm.trans (by decide)
    exact (Option.some.inj h).symm.trans (List.append_cancel_left happ).symm
  · split at h
    · cases h
      rw [hc.name, List.drop_left]
    · cases h

theorem stored_iff {attrs : List EnvAttribute} {d value : List Byte}
    (h : envParseAttribute w.image = some (attrs, d)) :
    Stored w key value ↔ valueOf attrs key = value := by
  unfold Stored
  rw [h, Option.map_some, Option.some_inj]

/-- A call that leaves the image as it was is worth what the last save of it was. -/
theorem WatchInv.stored_old (hw : WatchInv w) (hk : key ≠ []) (hs : saves w.env c = false) :
    (Sound w c key → Stored w key c.value) ∧
      (Stored w key c.value → Sound w c key ∨ (w.written = true ∧ Hidden w.saved key)) := by
  obtain ⟨d, hd⟩ := hw.image
  rw [stored_iff hd, Sound, if_neg (by simp [hs])]
  cases hwr : w.written with
  | false =>
    rw [Watch.onDisk, hwr, if_neg (by decide)]
    exact ⟨fun h => h.1, fun h => .inl ⟨h, fun h' => nomatch h'⟩⟩
  | true =>
    rw [Watch.onDisk, hwr, if_pos rfl]
    refine ⟨fun ⟨h1, h2⟩ => ?_, fun hst => ?_⟩
    · rw [(valueOf_kept_iff hk).2 (h2 rfl), h1]
    · by_cases hh : Hidden w.saved key
      · exact .inr ⟨rfl, hh⟩
      · rw [(valueOf_kept_iff hk).2 hh] at hst
        exact .inl ⟨hst, fun _ => hh⟩

/-- A call that is not aliased and returns 0. -/
theorem Ends.stored {e : Env} (hw : WatchInv w) (hc : Allowed w.env c key)
    (hal : ¬ Aliased w.env c) (h : Ends w c e 0) :
    (Sound w c key → Stored (w.next c e) key c.value) ∧
      (Stored (w.next c e) key c.value → Sound w c key ∨ (w.written = true ∧ Hidden w.saved key)) := by
  cases h with
  | refused h hr => exact absurd rfl hr
  | same h hv =>
    have hs : saves w.env c = false := by simp [saves, updates, h, hv]
    rw [Watch.next, if_neg (by simp [hs])]
    exact hw.stored_old hc.key_ne hs
  | saved h hs ha hi hl hd =>
    rw [hc.varible_eq hal h] at ha
    rw [Watch.next, if_pos hs, stored_iff hd, Sound, if_pos hs, ha, ← valueOf_kept_iff hc.key_ne,
      valueOf_setAttr]
    exact ⟨id, .inl⟩
  | short h hs ht ha hi hl =>
    rw [Watch.next, if_neg (by simp [hs])]
    exact hw.stored_old hc.key_ne hs
  | failed h hs ht ha hi hl hd hr => exact absurd hr (by decide)

end

/-- **What a result of 0 is worth**, in every run from an image: the value is in the image that
was last written whole, or read, if the call is `Sound`, and only if, but for a variable that was
hidden when it was last saved. Calls that take another variable than the name says are left
out. The device has this image unless a short `write` came after it. -/
theorem update_stored {varPrefix image : List Byte} {e₀ : Env} {w : Watch} {c : Call}
    {key : List Byte} (h₀ : bootenvInit varPrefix image = some e₀)
    (hr : Reach (.start e₀) w) (hc : Allowed w.env c key) :
    ∃ e ret, bootenvUpdate w.env c = some (e, ret) ∧
      (ret = 0 → ¬ Aliased w.env c →
        (Sound w c key → Stored (w.next c e) key c.value) ∧
        (Stored (w.next c e) key c.value →
          Sound w c key ∨ (w.written = true ∧ Hidden w.saved key))) ∧
      ((w.next c e).torn = false → e.disk = (w.next c e).image) := by
  have hw := (watchInv_start h₀).reach hr
  obtain ⟨e, ret, h, he⟩ := hw.update hc
  have henv : (w.next c e).env = e := by
    unfold Watch.next
    split <;> rfl
  refine ⟨e, ret, h, ?_, fun ht => ?_⟩
  · rintro rfl hal
    exact he.stored hw hc hal
  · rw [← (hw.next hc he).whole ht, henv]

/-- The image `a=1`, in sixteen bytes. -/
def imageA1 : List Byte := bytes "a=1" ++ List.replicate 13 0

/-- The environment read from it. -/
def envA1 : Env := (bootenvInit (bytes "p.") imageA1).getD ⟨[], false, [], [], []⟩

/-- `a` is to be `2`. -/
def setA2 (dev : Fin 5 → SaveResult) : Call := ⟨bytes "p.a", bytes "2", dev⟩

theorem varibleName_setA2 {e : Env} (hp : e.varPrefix = bytes "p.") :
    varibleName e (bytes "p.a") = some (bytes "a") := by
  rw [varibleName, isBootenvVarible, hp]
  decide

theorem allowed_setA2 {e : Env} (dev : Fin 5 → SaveResult) (hp : e.varPrefix = bytes "p.")
    (hfit : (render (setAttr (bytes "a") (bytes "2") e.attrs)).length < e.data.length) :
    Allowed e (setA2 dev) (bytes "a") := by
  have hname : (setA2 dev).name = e.varPrefix ++ bytes "a" := by
    rw [hp]
    rfl
  refine ⟨hname, by decide, by decide, show 0 ∉ bytes "p.a" by decide, show 0 ∉ bytes "2" by decide,
    by decide, show (bytes "2").length ≤ 1023 by decide, fun k hk => ?_⟩
  cases (varibleName_setA2 hp).symm.trans hk
  exact hfit

/-- The third attempt to save succeeds. -/
theorem stored_setA2 : ∃ e,
    bootenvUpdate envA1 (setA2 fun i => if i = 2 then .wrote 20 else .openFails) = some (e, 0) ∧
      Stored ((Watch.start envA1).next (setA2 fun i => if i = 2 then .wrote 20 else .openFails) e)
        (bytes "a") (bytes "2") := by
  obtain ⟨e, ret, h, hst, -⟩ := update_stored
    (show bootenvInit (bytes "p.") imageA1 = some envA1 from rfl) .init
    (allowed_setA2 (fun i => if i = 2 then .wrote 20 else .openFails) rfl (by decide))
  have hret : (bootenvUpdate envA1 (setA2 fun i => if i = 2 then .wrote 20 else .openFails)).map
      Prod.snd = some 0 := by
    decide
  have h0 : ret = 0 := by
    have h' := congrArg (Option.map Prod.snd) h
    exact (Option.some.inj (hret.symm.trans h')).symm
  subst h0
  refine ⟨e, h, (hst rfl fun hal => absurd hal.1 (by decide)).1 ?_⟩
  rw [Sound, if_pos (by decide)]
  rintro ⟨-, hv, -⟩
  exact absurd hv (by decide)

/-- **A save that failed is forgotten**: no attempt can open the device and the call fails,
and the same call again returns 0 with `1` still on the device. -/
theorem failed_save_forgotten : ∃ e₁ e₂,
    bootenvInit (bytes "p.") imageA1 = some envA1 ∧
    Allowed envA1 (setA2 fun _ => .openFails) (bytes "a") ∧
    bootenvUpdate envA1 (setA2 fun _ => .openFails) = some (e₁, -1) ∧
    Allowed e₁ (setA2 fun _ => .openFails) (bytes "a") ∧
    bootenvUpdate e₁ (setA2 fun _ => .openFails) = some (e₂, 0) ∧
    ¬ Stored (((Watch.start envA1).next (setA2 fun _ => .openFails) e₁).next
      (setA2 fun _ => .openFails) e₂) (bytes "a") (bytes "2") := by
  refine ⟨_, _, rfl, allowed_setA2 _ rfl (by decide), rfl, allowed_setA2 _ rfl (by decide), rfl, ?_⟩
  decide

/-- A `write` that takes six of the twenty bytes: the result is 0, and `a` is still `1`. -/
example : (bootenvUpdate envA1 (setA2 fun _ => .wrote 6)).map (fun r => (r.1.disk, r.2)) =
    some (imageA1, 0) := by
  decide

end VendorAmlogic.BootEnv
