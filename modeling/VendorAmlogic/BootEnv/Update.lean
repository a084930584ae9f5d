import VendorAmlogic.BootEnv.Codec

/-!
# The U-Boot environment: updates

`bootenv_update` and what it calls. The list of attributes in memory is changed
before it is saved, and a value that memory has already is not saved again.
The partition device answers each attempt to save with a `SaveResult`; `disk` is
the data of the image as the device has it. A `write` may take a part of the
image only, and `save_bootenv` looks at the sign of its result alone. The bytes
of the checksum in front of the data are counted, but their value is left out.
-/

namespace VendorAmlogic.BootEnv

open VendorAmlogic.Lib

/-! ## The source -/

/-- `PROFIX_UBOOTENV_VAR`, `ENT_INIT_DONE`, the attributes, `env_data.data`, and the
device. -/
structure Env where
  varPrefix : List Byte
  initDone : Bool
  attrs : List EnvAttribute
  data : List Byte
  disk : List Byte

/-- How an attempt to save ends; `wrote n` is a `write` that returns `n`, the bytes of the image
that the device has taken. -/
inductive SaveResult where
  | openFails
  | writeFails
  | wrote (n : Nat)
  deriving DecidableEq

/-- The bytes of the checksum, which the image begins with. -/
def crcSize : Nat := 4

/-- A call of `bootenv_update`, and what the device does in its five attempts. -/
structure Call where
  name : List Byte
  value : List Byte
  dev : Fin 5 → SaveResult

/-- `bootenv_init` with an image whose checksum is right. -/
def bootenvInit (varPrefix image : List Byte) : Option Env := do
  let (attrs, data) ← envParseAttribute image
  some ⟨varPrefix, true, attrs, data, image⟩

/-- The value of the first attribute with the key. -/
def findValue (attrs : List EnvAttribute) (key : List Byte) : Option (List Byte) :=
  (attrs.find? (·.key == key)).map (·.value)

/-- `bootenv_get_value`. -/
def bootenvGetValue (e : Env) (key : List Byte) : Option (List Byte) :=
  if ! e.initDone then none else findValue e.attrs key

/-- `bootenv_set_value`; `strcpy` into a field that is too small is `none`. -/
def bootenvSetValue (key value : List Byte) (creatArgsFlag : Bool) :
    List EnvAttribute → Option (List EnvAttribute × Int)
  | [] =>
    if creatArgsFlag then
      if key.length < 256 ∧ value.length < 1024 then some ([⟨key, value⟩], 1) else none
    else some ([], 0)
  | a :: as =>
    if a.key = key then
      if value.length < 1024 then some (⟨a.key, value⟩ :: as, 2) else none
    else (bootenvSetValue key value creatArgsFlag as).map fun r => (a :: r.1, r.2)

/-- `save_bootenv` on a device that needs no erase. -/
def saveBootenv (e : Env) (r : SaveResult) : Option (Env × Int) := do
  let data ← envRevertAttribute e.data.length e.attrs
  let e := { e with data := data }
  match r with
  | .openFails => some (e, -1)
  | .writeFails => some (e, -3)
  -- `err < 0` is the only check: a short `write` is a success, and the rest of the old image stays
  | .wrote n => some ({ e with disk := data.take (n - crcSize) ++ e.disk.drop (n - crcSize) }, 0)

/-- The attempts to save of `bootenv_update`. -/
def saveLoop : List SaveResult → Env → Int → Option (Env × Int)
  | [], e, ret => some (e, ret)
  | r :: rs, e, ret =>
    if ret < 0 then do
      let (e, ret) ← saveBootenv e r
      saveLoop rs e ret
    else some (e, ret)

/-- `is_bootenv_varible`. -/
def isBootenvVarible (e : Env) (name : List Byte) : Bool :=
  name ≠ [] && e.varPrefix ≠ [] && e.varPrefix.isPrefixOf name && e.varPrefix.length < name.length

/-- The variable that `bootenv_update` takes from the name. -/
def varibleName (e : Env) (name : List Byte) : Option (List Byte) :=
  if name = bytes "ubootenv.var.bootcmd" then some (bytes "bootcmd")
  else if isBootenvVarible e name then some (name.drop e.varPrefix.length)
  else none

/-- `bootenv_update`. -/
def bootenvUpdate (e : Env) (c : Call) : Option (Env × Int) :=
  if ! e.initDone then some (e, -1)
  else
    match varibleName e c.name with
    | none => some (e, -2)
    | some key =>
      if c.value = (bootenvGetValue e key).getD [] then some (e, 0)
      else do
        let (attrs, _) ← bootenvSetValue key c.value true e.attrs
        saveLoop (List.ofFn c.dev) { e with attrs := attrs } (-1)

/-! ## Values -/

/-- The value of a variable, which is empty when there is none. -/
def valueOf (attrs : List EnvAttribute) (key : List Byte) : List Byte :=
  (findValue attrs key).getD []

/-- The attributes with the value of a key set. -/
def setAttr (key value : List Byte) : List EnvAttribute → List EnvAttribute
  | [] => [⟨key, value⟩]
  | a :: as => if a.key = key then ⟨a.key, value⟩ :: as else a :: setAttr key value as

/-- A variable of one byte that is empty, with another value of it behind: the empty one
is not saved, and the other one comes to light. -/
def Hidden (attrs : List EnvAttribute) (key : List Byte) : Prop :=
  key.length = 1 ∧ valueOf attrs key = [] ∧ ∃ a ∈ attrs, a.key = key ∧ a.value ≠ []

section
variable {a : EnvAttribute} {attrs : List EnvAttribute} {key value : List Byte}

@[simp] theorem valueOf_nil : valueOf [] key = [] := rfl

theorem valueOf_cons : valueOf (a :: attrs) key = if a.key = key then a.value else valueOf attrs key := by
  unfold valueOf findValue
  by_cases h : a.key = key
  · simp [h]
  · simp [h, beq_eq_false_iff_ne.mpr h]

theorem valueOf_setAttr : valueOf (setAttr key value attrs) key = value := by
  induction attrs with
  | nil => simp [setAttr, valueOf_cons]
  | cons a as ih =>
    unfold setAttr
    split
    · rw [valueOf_cons, if_pos ‹_›]
    · rw [valueOf_cons, if_neg ‹_›, ih]

theorem setAttr_ne_nil : setAttr key value attrs ≠ [] := by
  cases attrs with
  | nil => exact List.cons_ne_nil _ _
  | cons a as =>
    unfold setAttr
    split
    · exact List.cons_ne_nil _ _
    · exact List.cons_ne_nil _ _

/-- What is so of the attributes and of the new one stays so. -/
theorem forall_mem_setAttr {P : EnvAttribute → Prop} (h : ∀ a ∈ attrs, P a) (hk : P ⟨key, value⟩) :
    ∀ a ∈ setAttr key value attrs, P a := by
  induction attrs with
  | nil => exact List.forall_mem_singleton.2 hk
  | cons a as ih =>
    have has : ∀ x ∈ as, P x := fun x hx => h x (List.mem_cons_of_mem _ hx)
    unfold setAttr
    split
    · rename_i heq
      rw [heq]
      exact List.forall_mem_cons.2 ⟨hk, has⟩
    · exact List.forall_mem_cons.2 ⟨h a List.mem_cons_self, ih has⟩

theorem bootenvSetValue_eq (hk : key.length < 256) (hv : value.length < 1024)
    (attrs : List EnvAttribute) :
    ∃ ret, bootenvSetValue key value true attrs = some (setAttr key value attrs, ret) := by
  induction attrs with
  | nil => exact ⟨1, by simp [bootenvSetValue, setAttr, hk, hv]⟩
  | cons a as ih =>
    obtain ⟨ret, h⟩ := ih
    by_cases ha : a.key = key
    · exact ⟨2, by simp [bootenvSetValue, setAttr, ha, hv]⟩
    · exact ⟨ret, by simp [bootenvSetValue, setAttr, ha, h]⟩

/-! ## What a save does to the values -/

/-- Only empty variables of one byte are not saved. -/
theorem valueOf_kept_self (hk : key ≠ []) : ∀ {attrs : List EnvAttribute},
    2 ≤ key.length ∨ valueOf attrs key ≠ [] → valueOf (kept attrs) key = valueOf attrs key
  | [], _ => rfl
  | [_], _ => rfl
  | a :: b :: as, h => by
    have hpos := List.length_pos_iff.mpr hk
    have hlen := a.length_text
    rw [valueOf_cons] at h ⊢
    rw [kept_cons_cons]
    by_cases ha : a.key = key
    · rw [if_pos ha] at h ⊢
      have hlong : ¬ a.text.length < 3 := by
        rw [hlen, ha]
        rcases h with h | h
        · omega
        · have := List.length_pos_iff.mpr h
          omega
      rw [if_neg hlong, valueOf_cons, if_pos ha]
    · rw [if_neg ha] at h ⊢
      have ih := valueOf_kept_self hk h
      split
      · exact ih
      · rw [valueOf_cons, if_neg ha, ih]

theorem valueOf_kept_nil (hk : key.length = 1) : ∀ {attrs : List EnvAttribute},
    valueOf (kept attrs) key = [] ↔ ∀ a ∈ attrs, a.key = key → a.value = []
  | [] => by simp [kept]
  | [a] => by
    rw [kept, valueOf_cons]
    simp
  | a :: b :: as => by
    have hlen := a.length_text
    have ih : valueOf (kept (b :: as)) key = [] ↔ ∀ x ∈ b :: as, x.key = key → x.value = [] :=
      valueOf_kept_nil hk
    rw [List.forall_mem_cons, ← ih, kept_cons_cons]
    split
    · rename_i hs
      refine ⟨fun h => ⟨fun ha => ?_, h⟩, fun h => h.2⟩
      rw [hlen, ha] at hs
      exact List.length_eq_zero_iff.mp (by omega)
    · rename_i hs
      rw [valueOf_cons]
      by_cases ha : a.key = key
      · rw [if_pos ha]
        refine ⟨fun h => ?_, fun h => h.1 ha⟩
        rw [hlen, ha, h] at hs
        exact absurd (by simp; omega) hs
      · rw [if_neg ha]
        exact ⟨fun h => ⟨fun h' => absurd h' ha, h⟩, fun h => h.2⟩

/-- **A save keeps the value of a variable** exactly if it is not hidden. -/
theorem valueOf_kept_iff (hk : key ≠ []) :
    valueOf (kept attrs) key = valueOf attrs key ↔ ¬ Hidden attrs key := by
  have hpos := List.length_pos_iff.mpr hk
  by_cases h : 2 ≤ key.length ∨ valueOf attrs key ≠ []
  · refine ⟨fun _ hh => ?_, fun _ => valueOf_kept_self hk h⟩
    rcases h with h | h
    · have := hh.1
      omega
    · exact h hh.2.1
  · obtain ⟨h1, h2⟩ := not_or.mp h
    have hone : key.length = 1 := by omega
    have hnil : valueOf attrs key = [] := by simpa using h2
    rw [hnil, valueOf_kept_nil hone]
    constructor
    · rintro hall ⟨-, -, a, ha, hak, hav⟩
      exact hav (hall a ha hak)
    · intro hh a ha hak
      by_contra hav
      exact hh ⟨hone, hnil, a, ha, hak, hav⟩

end

end VendorAmlogic.BootEnv
