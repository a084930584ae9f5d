import VendorAmlogic.BootEnv.Update

/-!
# The U-Boot environment: start-up

The first `bootenv_init`: the partition is read, in up to five attempts, and
then each system property whose name begins with the prefix is set to the
value of its variable. `PROFIX_UBOOTENV_VAR` is made from a property, and
`bootenv_get_value` answers only once `ENT_INIT_DONE` is set.
-/

namespace VendorAmlogic.BootEnv

open VendorAmlogic.Lib

/-! ## The source -/

/-- The partition that `bootenv_init` finds. Only `/dev/block/ubootenv` is opened and asked for
its size. -/
inductive Device where
  | nandEnv
  | blockEnv
  | ubootenv (opens info : Bool)
  | absent
  deriving DecidableEq

/-- What `bootenv_init` returns before it reads. -/
def Device.error : Device → Option Int
  | .ubootenv false _ => some (-2)
  | .ubootenv true false => some (-3)
  | _ => none

/-- How an attempt of `read_bootenv` ends. -/
inductive ReadResult where
  | openFails
  | noMemory
  | crcError
  | readFails
  | read
  deriving DecidableEq

def ReadResult.ret : ReadResult → Int
  | .openFails => -1
  | .noMemory => -2
  | .crcError => -3
  | .readFails => -5
  | .read => 0

/-- The environment and the system properties. -/
structure Boot where
  env : Env
  props : List (List Byte × List Byte)

/-- Before the first `bootenv_init`: the list is the header, which is zero. -/
def Boot.init (image : List Byte) (props : List (List Byte × List Byte)) : Boot :=
  ⟨⟨[], false, [⟨[], []⟩], [], image⟩, props⟩

/-- `property_get` with the default `""`. -/
def propertyGet (props : List (List Byte × List Byte)) (key : List Byte) : List Byte :=
  ((props.find? (·.1 = key)).map Prod.snd).getD []

/-- `property_set`. -/
def propertySet (props : List (List Byte × List Byte)) (key value : List Byte) :
    List (List Byte × List Byte) :=
  if props.any (·.1 = key) then props.map fun p => if p.1 = key then (key, value) else p
  else props ++ [(key, value)]

/-- `read_bootenv`. -/
def readBootenv (e : Env) (r : ReadResult) : Option Env :=
  match r with
  | .read => do
    let (attrs, data) ← envParseAttribute e.disk
    some { e with attrs := attrs, data := data }
  | _ => some e

/-- The attempts to read, with the number of them. -/
def readLoop : List ReadResult → Nat → Env → Int → Option (Env × Nat × Int)
  | [], i, e, ret => some (e, i, ret)
  | r :: rs, i, e, ret =>
    if ret < 0 then do
      let e ← readBootenv e r
      readLoop rs (i + 1) e r.ret
    else some (e, i, ret)

/-- `bootenv_prop_init`. -/
def bootenvPropInit (b : Boot) (key value : List Byte) : Boot :=
  if isBootenvVarible b.env key then
    let varibleValue := (bootenvGetValue b.env (key.drop b.env.varPrefix.length)).getD []
    if varibleValue ≠ value then { b with props := propertySet b.props key varibleValue } else b
  else b

/-- `bootenv_property_list` with `bootenv_prop_init`, from the `n`-th property on. -/
def propertyList : Nat → Nat → Boot → Boot
  | 0, _, b => b
  | fuel + 1, n, b =>
    match b.props[n]? with
    | none => b
    | some (key, value) => propertyList fuel (n + 1) (bootenvPropInit b key value)

/-- `bootenv_props_load`. The loop sets properties that are there already. -/
def bootenvPropsLoad (b : Boot) : Boot :=
  let b := propertyList b.props.length 0 b
  let bootcmd := b.env.varPrefix ++ bytes "bootcmd"
  let b :=
    if propertyGet b.props bootcmd = [] then
      match bootenvGetValue b.env (bytes "bootcmd") with
      | some value => { b with props := propertySet b.props bootcmd value }
      | none => b
    else b
  { b with env := { b.env with initDone := true } }

def MAX_UBOOT_RWRETRY : Nat := 5

def prefixProp : List Byte := bytes "ro.ubootenv.varible.prefix"

/-- The prefix without its dot, from its property. -/
def stemOf (props : List (List Byte × List Byte)) : List Byte :=
  if propertyGet props prefixProp = [] then bytes "ubootenv.var" else propertyGet props prefixProp

/-- The properties with the one of the prefix, which is set where there is none. -/
def withStem (props : List (List Byte × List Byte)) : List (List Byte × List Byte) :=
  if propertyGet props prefixProp = [] then propertySet props prefixProp (bytes "ubootenv.var")
  else props

/-- `bootenv_init`. -/
def bootenvStart (b : Boot) (device : Device) (dev : Fin 5 → ReadResult) : Option (Boot × Int) :=
  match device.error with
  | some ret => some (b, ret)
  | none => do
    let (e, i, _) ← readLoop (List.ofFn dev) 0 b.env (-1)
    if MAX_UBOOT_RWRETRY ≤ i then some ({ b with env := e }, -2)
    else if 16 < (stemOf b.props).length then some (⟨e, withStem b.props⟩, -4)
    else
      some (bootenvPropsLoad ⟨{ e with varPrefix := stemOf b.props ++ bytes "." }, withStem b.props⟩, 0)

/-! ## The start-up -/

/-- An attempt to read is made, and succeeds. -/
def Succeeds (device : Device) (dev : Fin 5 → ReadResult) : Prop :=
  device.error = none ∧ ∃ i, dev i = .read

/-- Each property whose name begins with the prefix has the value of its variable. -/
def Synced (attrs : List EnvAttribute) (varPrefix : List Byte)
    (props : List (List Byte × List Byte)) : Prop :=
  ∀ p ∈ props, varPrefix <+: p.1 → p.2 = valueOf attrs (p.1.drop varPrefix.length)

/-- A start-up that could read the image ends with success and with the properties in step. -/
def StartsUp (image : List Byte) (props : List (List Byte × List Byte)) (device : Device)
    (dev : Fin 5 → ReadResult) : Prop :=
  Succeeds device dev → ∃ b attrs data, bootenvStart (.init image props) device dev = some (b, 0) ∧
    envParseAttribute image = some (attrs, data) ∧ Synced attrs (stemOf props ++ bytes ".") b.props

/-- The image has nothing for the properties: the variables of those that `bootenv_init` sets are
empty. The name that is only the prefix is no variable's, and its property is left as it is. -/
def Blank (attrs : List EnvAttribute) (varPrefix : List Byte)
    (props : List (List Byte × List Byte)) : Prop :=
  ∀ p ∈ props, varPrefix <+: p.1 →
    if p.1 = varPrefix then p.2 = valueOf attrs [] else valueOf attrs (p.1.drop varPrefix.length) = []

/-! ## The attempts to read -/

/-- The loop ends with the first attempt that succeeds. -/
theorem readLoop_of_first {pre post : List ReadResult} (h : ReadResult.read ∉ pre) (i : Nat)
    (e : Env) {ret : Int} (hret : ret < 0) :
    readLoop (pre ++ .read :: post) i e ret =
      (readBootenv e .read).map fun e' => (e', i + pre.length + 1, 0) := by
  induction pre generalizing i ret with
  | nil =>
    rw [List.nil_append, readLoop, if_pos hret]
    cases readBootenv e .read with
    | none => rfl
    | some e' => cases post <;> rfl
  | cons r pre ih =>
    have hr : r ≠ .read := fun heq => h (heq ▸ List.mem_cons_self)
    have hread : readBootenv e r = some e := by cases r <;> simp_all [readBootenv]
    have hneg : r.ret < 0 := by cases r <;> simp_all [ReadResult.ret]
    have hloop := ih (fun hm => h (List.mem_cons_of_mem _ hm)) (i + 1) hneg
    rw [List.cons_append, readLoop, if_pos hret, hread]
    simp only [Option.bind_eq_bind, Option.bind_some, hloop, List.length_cons]
    congr 1
    funext e'
    simp [Nat.add_comm, Nat.add_left_comm]

/-- The attempts before the first one that succeeds, and where it is. -/
theorem exists_first {dev : Fin 5 → ReadResult} {i : Fin 5} (h : dev i = .read) :
    ∃ pre post, List.ofFn dev = pre ++ .read :: post ∧ .read ∉ pre ∧
      (pre.length < 4 ↔ ∃ i, i.val < 4 ∧ dev i = .read) := by
  obtain ⟨pre, post, hsplit, hpre⟩ :=
    List.eq_append_cons_of_mem (a := ReadResult.read) (List.mem_ofFn.2 ⟨i, h⟩)
  have hlen : pre.length + post.length + 1 = 5 := by
    have := congrArg List.length hsplit
    simp at this
    omega
  refine ⟨pre, post, hsplit, hpre, fun hlt => ⟨⟨pre.length, by omega⟩, hlt, ?_⟩, ?_⟩
  · have hget : (List.ofFn dev)[pre.length]? = some .read := by rw [hsplit]; simp
    rw [List.getElem?_ofFn, dif_pos (show pre.length < 5 by omega)] at hget
    exact Option.some.inj hget
  · rintro ⟨j, hj, hread⟩
    by_contra hge
    have hget : (List.ofFn dev)[j.val]? = some .read := by
      rw [List.getElem?_ofFn, dif_pos j.isLt]
      exact congrArg some hread
    rw [hsplit, List.getElem?_append_left (by omega)] at hget
    exact hpre (List.mem_of_getElem? hget)

/-! ## The properties -/

/-- What `bootenv_prop_init` makes of a property. -/
def loaded (e : Env) (p : List Byte × List Byte) : List Byte × List Byte :=
  if isBootenvVarible e p.1 then (p.1, (bootenvGetValue e (p.1.drop e.varPrefix.length)).getD [])
  else p

@[simp] theorem loaded_fst (e : Env) (p : List Byte × List Byte) : (loaded e p).1 = p.1 := by
  unfold loaded
  split <;> rfl

theorem mem_propertySet {props : List (List Byte × List Byte)} {key value : List Byte}
    {p : List Byte × List Byte} (h : p.1 ≠ key) : p ∈ propertySet props key value ↔ p ∈ props := by
  unfold propertySet
  split
  · rw [List.mem_map]
    constructor
    · rintro ⟨q, hq, rfl⟩
      split at h
      · exact absurd rfl h
      · rwa [if_neg ‹_›]
    · exact fun hp => ⟨p, hp, if_neg h⟩
  · rw [List.mem_append]
    refine or_iff_left fun hm => h ?_
    rw [List.mem_singleton.1 hm]

theorem propertySet_names {props : List (List Byte × List Byte)} {key value : List Byte}
    (h : (props.map Prod.fst).Nodup) : ((propertySet props key value).map Prod.fst).Nodup := by
  unfold propertySet
  split
  · rw [List.map_map]
    have hfst : (Prod.fst ∘ fun p : List Byte × List Byte => if p.1 = key then (key, value) else p) =
        Prod.fst := by
      funext p
      by_cases hp : p.1 = key <;> simp [hp]
    rwa [hfst]
  · rename_i hno
    rw [List.map_append]
    refine h.append (List.nodup_singleton _) ?_
    intro k hk hk'
    obtain ⟨p, hp, rfl⟩ := List.mem_map.1 hk
    have hkey : p.1 = key := by simpa using hk'
    exact hno (List.any_eq_true.2 ⟨p, hp, by simpa using hkey⟩)

theorem propertySet_middle {pre post : List (List Byte × List Byte)} {key value : List Byte}
    (hpre : ∀ p ∈ pre, p.1 ≠ key) (hpost : ∀ p ∈ post, p.1 ≠ key) (old : List Byte) :
    propertySet (pre ++ (key, old) :: post) key value = pre ++ (key, value) :: post := by
  have hsame : ∀ l : List (List Byte × List Byte), (∀ p ∈ l, p.1 ≠ key) →
      l.map (fun p => if p.1 = key then (key, value) else p) = l := fun l hl =>
    (List.map_congr_left fun p hp => if_neg (hl p hp)).trans l.map_id
  rw [propertySet, if_pos (by simp), List.map_append, List.map_cons, hsame pre hpre,
    hsame post hpost, if_pos rfl]

theorem bootenvPropInit_middle {e : Env} {pre post : List (List Byte × List Byte)}
    {p : List Byte × List Byte} (h : ((pre ++ p :: post).map Prod.fst).Nodup) :
    bootenvPropInit ⟨e, pre ++ p :: post⟩ p.1 p.2 = ⟨e, pre ++ loaded e p :: post⟩ := by
  obtain ⟨key, value⟩ := p
  have hpre : ∀ q ∈ pre, q.1 ≠ key := by
    rintro q hq rfl
    rw [List.map_append, List.nodup_append] at h
    exact h.2.2 _ (List.mem_map_of_mem hq) _ (by simp) rfl
  have hpost : ∀ q ∈ post, q.1 ≠ key := by
    rintro q hq rfl
    rw [List.map_append, List.nodup_append, List.map_cons, List.nodup_cons] at h
    exact h.2.1.1 (List.mem_map.2 ⟨q, hq, rfl⟩)
  unfold bootenvPropInit loaded
  by_cases hv : isBootenvVarible e key = true
  · simp only [if_pos hv]
    split
    · rw [propertySet_middle hpre hpost]
    · rename_i hsame
      rw [not_ne_iff.1 hsame]
  · simp only [if_neg hv]

/-- The loop goes once over the table. -/
theorem propertyList_eq {e : Env} (post pre : List (List Byte × List Byte))
    (h : ((pre ++ post).map Prod.fst).Nodup) :
    propertyList post.length pre.length ⟨e, pre ++ post⟩ = ⟨e, pre ++ post.map (loaded e)⟩ := by
  induction post generalizing pre with
  | nil => simp [propertyList]
  | cons p post ih =>
    have hnext : (((pre ++ [loaded e p]) ++ post).map Prod.fst).Nodup := by
      simpa using h
    have hstep := ih (pre ++ [loaded e p]) hnext
    rw [List.length_append, List.length_singleton] at hstep
    rw [List.length_cons, propertyList]
    simp only [List.getElem?_append_right (Nat.le_refl _), Nat.sub_self, List.getElem?_cons_zero]
    rw [bootenvPropInit_middle h, List.append_cons, hstep]
    simp

/-! ## The whole start-up -/

/-- While `ENT_INIT_DONE` is not set every variable looks absent. -/
theorem bootenvPropsLoad_props {e : Env} {props : List (List Byte × List Byte)}
    (hdone : e.initDone = false) (h : (props.map Prod.fst).Nodup) :
    (bootenvPropsLoad ⟨e, props⟩).props =
      props.map fun p => if isBootenvVarible e p.1 then (p.1, []) else p := by
  have hget : ∀ key, bootenvGetValue e key = none := fun key => by simp [bootenvGetValue, hdone]
  have hlist := propertyList_eq (e := e) props [] h
  simp only [List.nil_append, List.length_nil] at hlist
  have hload : loaded e = fun p => if isBootenvVarible e p.1 then (p.1, []) else p := by
    funext p
    simp [loaded, hget]
  simp only [bootenvPropsLoad, hlist, hget, ite_self, hload]

theorem withStem_names {props : List (List Byte × List Byte)} (h : (props.map Prod.fst).Nodup) :
    ((withStem props).map Prod.fst).Nodup := by
  unfold withStem
  split
  · exact propertySet_names h
  · exact h

/-- The property of the prefix does not begin with the prefix that it makes. -/
theorem mem_withStem {props : List (List Byte × List Byte)} {p : List Byte × List Byte}
    (hp : stemOf props ++ bytes "." <+: p.1) : p ∈ withStem props ↔ p ∈ props := by
  unfold withStem
  unfold stemOf at hp
  split
  · rename_i hnil
    rw [if_pos hnil] at hp
    refine mem_propertySet fun heq => ?_
    rw [heq] at hp
    exact absurd hp (by decide)
  · exact Iff.rfl

/-- A start-up that gets through the attempts. -/
theorem bootenvStart_eq {image : List Byte} {props : List (List Byte × List Byte)}
    {device : Device} {dev : Fin 5 → ReadResult} {pre post : List ReadResult}
    (hdev : device.error = none) (hsplit : List.ofFn dev = pre ++ .read :: post)
    (hpre : ReadResult.read ∉ pre) (hstem : (stemOf props).length ≤ 16) :
    bootenvStart (.init image props) device dev =
      (envParseAttribute image).map fun a =>
        if 4 ≤ pre.length then (⟨⟨[], false, a.1, a.2, image⟩, props⟩, -2)
        else (bootenvPropsLoad ⟨⟨stemOf props ++ bytes ".", false, a.1, a.2, image⟩, withStem props⟩, 0) := by
  rw [bootenvStart, hdev]
  simp only [hsplit, readLoop_of_first hpre 0 (Boot.init image props).env (show (-1 : Int) < 0 by decide)]
  cases hparse : envParseAttribute image with
  | none => simp [readBootenv, Boot.init, hparse]
  | some a =>
    have hread : readBootenv (Boot.init image props).env .read =
        some ⟨[], false, a.1, a.2, image⟩ := by simp [readBootenv, Boot.init, hparse]
    rw [hread]
    by_cases h4 : 4 ≤ pre.length
    · simp [MAX_UBOOT_RWRETRY, h4, Boot.init]
    · have h16 : ¬ 16 < (stemOf props).length := by omega
      simp [MAX_UBOOT_RWRETRY, h4, Boot.init, h16]

theorem isBootenvVarible_iff {e : Env} {name : List Byte} (h : e.varPrefix ≠ []) :
    isBootenvVarible e name = true ↔ e.varPrefix <+: name ∧ name ≠ e.varPrefix := by
  simp only [isBootenvVarible, Bool.and_eq_true, decide_eq_true_eq, List.isPrefixOf_iff_prefix]
  constructor
  · rintro ⟨⟨-, hp⟩, hlt⟩
    exact ⟨hp, fun heq => absurd hlt (by simp [heq])⟩
  · rintro ⟨hp, hne⟩
    have hlt : e.varPrefix.length < name.length :=
      lt_of_le_of_ne hp.length_le fun heq => hne (hp.eq_of_length heq).symm
    exact ⟨⟨⟨List.ne_nil_of_length_pos (by omega), h⟩, hp⟩, hlt⟩

/-- The properties are in step after the loading if the image has nothing for them. -/
theorem synced_iff_blank {attrs : List EnvAttribute} {e : Env}
    {props : List (List Byte × List Byte)} (h : e.varPrefix ≠ []) :
    Synced attrs e.varPrefix (props.map fun p => if isBootenvVarible e p.1 then (p.1, []) else p) ↔
      Blank attrs e.varPrefix props := by
  unfold Synced Blank
  rw [List.forall_mem_map]
  refine forall₂_congr fun p _ => ?_
  by_cases hv : isBootenvVarible e p.1 = true
  · have hne := ((isBootenvVarible_iff h).1 hv).2
    simp only [if_pos hv, if_neg hne]
    exact imp_congr_right fun _ => eq_comm
  · simp only [if_neg hv]
    refine imp_congr_right fun hp => ?_
    have heq : p.1 = e.varPrefix := by
      by_contra hne
      exact hv ((isBootenvVarible_iff h).2 ⟨hp, hne⟩)
    rw [if_pos heq, heq, List.drop_length]

/-- A start-up that can read the image is as it should be exactly if one of the first four attempts
succeeds and the image has no value for any of the properties. -/
theorem startsUp_iff (image : List Byte) (props : List (List Byte × List Byte)) (device : Device)
    (dev : Fin 5 → ReadResult) (hnames : (props.map Prod.fst).Nodup)
    (hstem : (stemOf props).length ≤ 16) :
    StartsUp image props device dev ↔ (Succeeds device dev →
      (∃ i, i.val < 4 ∧ dev i = .read) ∧ ∃ attrs data, envParseAttribute image = some (attrs, data) ∧
        Blank attrs (stemOf props ++ bytes ".") props) := by
  refine imp_congr_right fun hs => ?_
  obtain ⟨hdev, i, hi⟩ := hs
  obtain ⟨pre, post, hsplit, hpre, hfour⟩ := exists_first hi
  have hblank : ∀ attrs, Blank attrs (stemOf props ++ bytes ".") (withStem props) ↔
      Blank attrs (stemOf props ++ bytes ".") props := fun attrs => by
    unfold Blank
    exact forall_congr' fun p => ⟨fun h hm hp => h ((mem_withStem hp).2 hm) hp,
      fun h hm hp => h ((mem_withStem hp).1 hm) hp⟩
  rw [bootenvStart_eq hdev hsplit hpre hstem, ← hfour]
  cases hparse : envParseAttribute image with
  | none => simp
  | some a =>
    have hload : Synced a.1 (stemOf props ++ bytes ".")
        (bootenvPropsLoad ⟨⟨stemOf props ++ bytes ".", false, a.1, a.2, image⟩, withStem props⟩).props ↔
          Blank a.1 (stemOf props ++ bytes ".") props := by
      rw [bootenvPropsLoad_props rfl (withStem_names hnames), ← hblank]
      exact synced_iff_blank (e := ⟨stemOf props ++ bytes ".", false, a.1, a.2, image⟩) (by simp [bytes])
    constructor
    · rintro ⟨b, attrs, data, hb, ha, hsync⟩
      obtain ⟨rfl⟩ : a = (attrs, data) := Option.some.inj ha
      by_cases h4 : 4 ≤ pre.length
      · simp [h4] at hb
      · simp only [Option.map_some, if_neg h4, Option.some.injEq, Prod.mk.injEq, and_true] at hb
        rw [← hb] at hsync
        exact ⟨by omega, _, _, rfl, hload.1 hsync⟩
    · rintro ⟨h4, attrs, data, ha, hb⟩
      obtain ⟨rfl⟩ : a = (attrs, data) := Option.some.inj ha
      refine ⟨_, _, _, ?_, rfl, hload.2 hb⟩
      rw [Option.map_some, if_neg (by omega)]

/-- A property of another name, and one whose variable is not in the image `a=1`. -/
def blankProps : List (List Byte × List Byte) :=
  [(bytes "ro.serialno", bytes "7"), (bytes "ubootenv.var.b", bytes "2")]

/-- The second attempt succeeds. -/
def secondRead : Fin 5 → ReadResult := fun i => if i = 1 then .read else .readFails

theorem startsUp_blankProps :
    StartsUp (bytes "a=1" ++ List.replicate 13 0) blankProps .blockEnv secondRead := by
  refine (startsUp_iff _ _ _ _ (by decide) (by decide)).2 fun _ => ⟨⟨1, by decide⟩, ?_⟩
  refine ⟨[⟨bytes "a", bytes "1"⟩], bytes "a" ++ 0 :: bytes "1" ++ List.replicate 13 0, by decide, ?_⟩
  unfold Blank
  decide

/-- A property whose variable has the same value in the image `a=1`. -/
def setProps : List (List Byte × List Byte) := [(bytes "ubootenv.var.a", bytes "1")]

/-- The first attempt succeeds, and the property is emptied. -/
theorem not_startsUp_setProps :
    ¬ StartsUp (bytes "a=1" ++ List.replicate 13 0) setProps .blockEnv (fun _ => .read) := by
  intro h
  obtain ⟨b, attrs, data, hstart, hparse, hsync⟩ := h ⟨rfl, 0, rfl⟩
  have hprops : (bootenvStart (.init (bytes "a=1" ++ List.replicate 13 0) setProps) .blockEnv
      (fun _ => .read)).map (fun r => (r.1.props, r.2)) =
        some ([(bytes "ubootenv.var.a", []), (prefixProp, bytes "ubootenv.var")], 0) := by decide
  have hattrs : (envParseAttribute (bytes "a=1" ++ List.replicate 13 0)).map Prod.fst =
      some [⟨bytes "a", bytes "1"⟩] := by decide
  rw [hstart, Option.map_some, Option.some.injEq, Prod.mk.injEq] at hprops
  rw [hparse, Option.map_some, Option.some.injEq] at hattrs
  have hp := hsync (bytes "ubootenv.var.a", []) (by rw [hprops.1]; exact List.mem_cons_self) (by decide)
  obtain rfl : attrs = [⟨bytes "a", bytes "1"⟩] := hattrs
  exact absurd hp (by decide)

end VendorAmlogic.BootEnv
