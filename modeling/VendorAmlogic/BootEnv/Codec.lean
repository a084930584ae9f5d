import Mathlib.Tactic
import VendorAmlogic.Lib.Bytes

/-!
# The U-Boot environment: image and attributes

`env_parse_attribute` and `env_revert_attribute` of `systemcontrol/ubootenv.c`.
The data of the image is a sequence of strings `key=value`, each with its NUL,
ended by an empty one. The attributes are a list, the first of them the static
`env_attribute_header`. A read or a write outside of a buffer is `none`.
-/

namespace VendorAmlogic.BootEnv

open VendorAmlogic.Lib

/-- `env_attribute`; the strings are without their NUL. -/
structure EnvAttribute where
  key : List Byte
  value : List Byte
  deriving DecidableEq

/-- `"%s=%s"`. -/
def EnvAttribute.text (a : EnvAttribute) : List Byte := a.key ++ 0x3D :: a.value

/-! ## The source -/

/-- `strlen` of the string at `o`. -/
def strlen (data : List Byte) (o : Nat) : Option Nat := (data.drop o).findIdx? (· == 0)

/-- One string of the loop of `env_parse_attribute`: the attribute, and the data with the
`=` overwritten. The fields of an attribute have 256 and 1024 bytes; a string
without `=` leaves the attribute empty. -/
def parseLine (data : List Byte) (proc len : Nat) : Option (EnvAttribute × List Byte) :=
  let line := (data.drop proc).take len
  match line.findIdx? (· == 0x3D) with
  | some i =>
    if i < 256 ∧ len - (i + 1) < 1024 then
      some (⟨line.take i, line.drop (i + 1)⟩, data.set (proc + i) 0)
    else none
  | none => some (⟨[], []⟩, data)

/-- The loop of `env_parse_attribute`; a round takes a string and its NUL. -/
def parseLoop : Nat → List Byte → Nat → Option (List EnvAttribute × List Byte)
  | 0, _, _ => none
  | fuel + 1, data, proc => do
    let len ← strlen data proc
    let nextProc := proc + len + 1
    let (attr, data) ← parseLine data proc len
    let c ← data[nextProc]?
    if c = 0 then some ([attr], data)
    else do
      let (attrs, data) ← parseLoop fuel data nextProc
      some (attr :: attrs, data)

/-- `env_parse_attribute`: the attributes, and what it leaves of the data. -/
def envParseAttribute (data : List Byte) : Option (List EnvAttribute × List Byte) :=
  parseLoop data.length data 0

/-- The loop of `env_revert_attribute`. A text of fewer than three bytes is written,
but the next one is written over it. -/
def revertLoop : List EnvAttribute → List Byte → Nat → Option (List Byte)
  | [], data, _ => some data
  | attr :: attrs, data, o =>
    let text := attr.text
    if o + text.length + 1 ≤ data.length then
      revertLoop attrs (overwrite data o (text ++ [0]))
        (if text.length < 3 then o else o + text.length + 1)
    else none

/-- `env_revert_attribute`. -/
def envRevertAttribute (size : Nat) (attrs : List EnvAttribute) : Option (List Byte) :=
  revertLoop attrs (List.replicate size 0) 0

/-! ## Well-formed attributes -/

/-- The strings of an attribute are C strings that fit, and the key has no `=`. -/
structure EnvAttribute.Ok (a : EnvAttribute) : Prop where
  key_nul : 0 ∉ a.key
  key_eq : 0x3D ∉ a.key
  value_nul : 0 ∉ a.value
  key_le : a.key.length ≤ 255
  value_le : a.value.length ≤ 1023

/-- The strings of the attributes, each with its NUL. -/
def render (attrs : List EnvAttribute) : List Byte := attrs.flatMap fun a => a.text ++ [0]

/-- The attributes that the data has in the end: a text of fewer than three bytes
stays only as the last one. -/
def kept : List EnvAttribute → List EnvAttribute
  | [] => []
  | [a] => [a]
  | a :: b :: as => if a.text.length < 3 then kept (b :: as) else a :: kept (b :: as)

theorem kept_cons_cons (a b : EnvAttribute) (as : List EnvAttribute) :
    kept (a :: b :: as) = if a.text.length < 3 then kept (b :: as) else a :: kept (b :: as) := rfl

/-- The data of the given size that begins with `b`. -/
def padded (size : Nat) (b : List Byte) : List Byte := b ++ List.replicate (size - b.length) 0

section
variable {a : EnvAttribute} {attrs : List EnvAttribute}

theorem EnvAttribute.length_text : a.text.length = a.key.length + a.value.length + 1 := by
  simp [EnvAttribute.text]
  omega

theorem EnvAttribute.Ok.text_nul (h : a.Ok) : 0 ∉ a.text := by
  intro hmem
  rcases List.mem_append.mp hmem with hk | hv
  · exact h.key_nul hk
  · rcases List.mem_cons.mp hv with hv | hv
    · exact absurd hv (by decide)
    · exact h.value_nul hv

@[simp] theorem render_nil : render [] = [] := rfl

@[simp] theorem render_cons : render (a :: attrs) = a.text ++ 0 :: render attrs := by
  simp [render]

theorem kept_subset : ∀ {attrs : List EnvAttribute}, ∀ a ∈ kept attrs, a ∈ attrs
  | [], _, h => h
  | [_], _, h => h
  | a :: b :: as, x, h => by
    rw [kept_cons_cons] at h
    split at h
    · exact List.mem_cons_of_mem _ (kept_subset x h)
    · rcases List.mem_cons.mp h with rfl | h
      · exact List.mem_cons_self
      · exact List.mem_cons_of_mem _ (kept_subset x h)

theorem kept_ne_nil : ∀ {attrs : List EnvAttribute}, attrs ≠ [] → kept attrs ≠ []
  | [], h => absurd rfl h
  | [_], _ => List.cons_ne_nil _ _
  | a :: b :: as, _ => by
    rw [kept_cons_cons]
    split
    · exact kept_ne_nil (List.cons_ne_nil _ _)
    · exact List.cons_ne_nil _ _

theorem length_render_kept : ∀ attrs, (render (kept attrs)).length ≤ (render attrs).length
  | [] => Nat.le_refl _
  | [_] => Nat.le_refl _
  | a :: b :: as => by
    have ih := length_render_kept (b :: as)
    rw [kept_cons_cons]
    split
    · rw [render_cons, List.length_append, List.length_cons]
      omega
    · rw [render_cons, render_cons]
      simp only [List.length_append, List.length_cons] at ih ⊢
      omega

theorem kept_eq_self : ∀ {attrs : List EnvAttribute}, (∀ a ∈ attrs, 3 ≤ a.text.length) →
    kept attrs = attrs
  | [], _ => rfl
  | [_], _ => rfl
  | a :: b :: as, h => by
    have ha := h a List.mem_cons_self
    rw [kept_cons_cons]
    rw [if_neg (by omega), kept_eq_self fun x hx => h x (List.mem_cons_of_mem _ hx)]

end

/-! ## Writing -/

theorem EnvAttribute.text_pos (a : EnvAttribute) : 0 < a.text.length := by
  rw [EnvAttribute.length_text]
  omega

/-- One text, with what it leaves of the zeros. -/
theorem overwrite_text {pre junk text : List Byte}
    (hjunk : junk.drop 2 = List.replicate (junk.length - 2) 0) (hpos : 0 < text.length)
    (hfit : text.length + 1 ≤ junk.length) :
    overwrite (pre ++ junk) pre.length (text ++ [0]) =
      pre ++ (text ++ List.replicate (junk.length - text.length) 0) := by
  have hdrop : junk.drop (text.length + 1) = List.replicate (junk.length - (text.length + 1)) 0 := by
    have h : text.length + 1 = 2 + (text.length - 1) := by omega
    rw [h, ← List.drop_drop, hjunk, List.drop_replicate]
    congr 1
    omega
  have hlast : junk.length - text.length = (junk.length - (text.length + 1)) + 1 := by omega
  rw [overwrite_of_le (by simp), List.take_left, List.length_append, List.length_singleton,
    List.drop_append, List.drop_of_length_le (by omega), List.nil_append,
    Nat.add_sub_cancel_left, hdrop, hlast, List.replicate_succ]
  simp

/-- Every text has room where it is written, with `n` bytes left at the first. -/
def WritesFit : List EnvAttribute → Nat → Prop
  | [], _ => True
  | a :: as, n =>
    a.text.length + 1 ≤ n ∧ WritesFit as (if a.text.length < 3 then n else n - (a.text.length + 1))

theorem writesFit_of_render : ∀ {attrs : List EnvAttribute} {n : Nat},
    (render attrs).length ≤ n → WritesFit attrs n
  | [], _, _ => trivial
  | a :: as, n, h => by
    rw [render_cons, List.length_append, List.length_cons] at h
    refine ⟨by omega, writesFit_of_render ?_⟩
    split <;> omega

/-- **What `env_revert_attribute` writes**: the texts kept, then zeros. `junk` is what a
short text has left behind. -/
theorem revertLoop_eq {pre junk : List Byte} : ∀ {attrs : List EnvAttribute}, attrs ≠ [] →
    junk.drop 2 = List.replicate (junk.length - 2) 0 →
    WritesFit attrs junk.length →
    revertLoop attrs (pre ++ junk) pre.length =
      some (padded (pre ++ junk).length (pre ++ render (kept attrs)))
  | [], hne, _, _ => absurd rfl hne
  | [a], _, hjunk, hfit => by
    have hpos := a.text_pos
    have hfit := hfit.1
    have hlast : junk.length - a.text.length = (junk.length - (a.text.length + 1)) + 1 := by omega
    unfold revertLoop
    dsimp only
    rw [if_pos (by rw [List.length_append]; omega), overwrite_text hjunk hpos (by omega)]
    simp only [revertLoop, kept, padded, render_cons, render_nil, List.length_append,
      List.length_cons, List.length_nil]
    rw [hlast, List.replicate_succ]
    simp only [List.append_assoc, List.cons_append, List.nil_append]
    congr 5
    omega
  | a :: b :: as, _, hjunk, hfit => by
    have hpos := a.text_pos
    obtain ⟨hfit, hrest⟩ := hfit
    have hlen : (a.text ++ List.replicate (junk.length - a.text.length) (0 : Byte)).length =
        junk.length := by
      simp only [List.length_append, List.length_replicate]
      omega
    unfold revertLoop
    dsimp only
    rw [if_pos (by rw [List.length_append]; omega), overwrite_text hjunk hpos (by omega)]
    by_cases hs : a.text.length < 3
    · rw [if_pos hs] at hrest
      rw [if_pos hs, revertLoop_eq (List.cons_ne_nil b as) ?_ (by rwa [hlen])]
      · simp only [kept, if_pos hs, List.length_append, List.length_replicate]
        congr 3
        omega
      · rw [List.drop_append, List.drop_of_length_le (by omega), List.nil_append,
          List.drop_replicate, hlen]
        congr 1
        omega
    · have hsplit : pre ++ (a.text ++ List.replicate (junk.length - a.text.length) (0 : Byte)) =
          (pre ++ (a.text ++ [0])) ++ List.replicate (junk.length - (a.text.length + 1)) 0 := by
        have hlast : junk.length - a.text.length = (junk.length - (a.text.length + 1)) + 1 := by omega
        rw [hlast, List.replicate_succ]
        simp
      have hpre : pre.length + a.text.length + 1 = (pre ++ (a.text ++ [0])).length := by
        simp only [List.length_append, List.length_singleton]
        omega
      have htotal : ((pre ++ (a.text ++ [0])) ++
          List.replicate (junk.length - (a.text.length + 1)) (0 : Byte)).length =
          (pre ++ junk).length := by
        simp only [List.length_append, List.length_singleton, List.length_replicate]
        omega
      rw [if_neg hs] at hrest
      rw [if_neg hs, hsplit, hpre, revertLoop_eq (List.cons_ne_nil b as) (by simp)
        (by rwa [List.length_replicate]), htotal]
      simp [kept, if_neg hs]

/-- `env_revert_attribute` on attributes that fit. -/
theorem envRevertAttribute_eq {size : Nat} {attrs : List EnvAttribute} (hne : attrs ≠ [])
    (hfit : WritesFit attrs size) :
    envRevertAttribute size attrs = some (padded size (render (kept attrs))) := by
  have h : revertLoop attrs ([] ++ List.replicate size 0) ([] : List Byte).length = _ :=
    revertLoop_eq hne (by simp) (by simpa using hfit)
  simpa [envRevertAttribute] using h

/-! ## Reading -/

section
variable {a : EnvAttribute} {pre rest : List Byte}

/-- The data with the `=` of one text overwritten. -/
theorem parseLine_text (ha : a.Ok) :
    parseLine (pre ++ (a.text ++ rest)) pre.length a.text.length =
      some (a, pre ++ (a.key ++ 0 :: (a.value ++ rest))) := by
  have hline : ((pre ++ (a.text ++ rest)).drop pre.length).take a.text.length = a.text := by
    rw [List.drop_left, List.take_left]
  have hfind : a.text.findIdx? (· == 0x3D) = some a.key.length := by
    unfold EnvAttribute.text
    rw [List.findIdx?_append, List.findIdx?_eq_none_iff.mpr]
    · simp [List.findIdx?_cons]
    · intro x hx
      simpa using fun h : x = 0x3D => ha.key_eq (h ▸ hx)
  have hkl := ha.key_le
  have hvl := ha.value_le
  have hlen := a.length_text
  unfold parseLine
  simp only [hline, hfind]
  rw [if_pos (by omega)]
  congr 2
  · unfold EnvAttribute.text
    rw [List.take_left, ← List.drop_drop, List.drop_left]
    rfl
  · rw [List.set_append_right _ _ (by omega), Nat.add_sub_cancel_left]
    unfold EnvAttribute.text
    rw [List.append_assoc, List.set_append_right _ _ (Nat.le_refl _), Nat.sub_self]
    rfl

theorem strlen_text (ha : a.Ok) :
    strlen (pre ++ (a.text ++ 0 :: rest)) pre.length = some a.text.length := by
  unfold strlen
  rw [List.drop_left, List.findIdx?_append, List.findIdx?_eq_none_iff.mpr]
  · simp [List.findIdx?_cons]
  · intro x hx
    simpa using fun h : x = 0 => ha.text_nul (h ▸ hx)

/-- What is left of a text behind the parser. -/
def EnvAttribute.cut (a : EnvAttribute) : List Byte := a.key ++ 0 :: (a.value ++ [0])

/-- **One round** of the parser: the text in front, and whether another follows. -/
theorem parseLoop_text (ha : a.Ok) (fuel : Nat) (x : Byte) :
    parseLoop (fuel + 1) (pre ++ (a.text ++ 0 :: x :: rest)) pre.length =
      if x = 0 then some ([a], (pre ++ a.cut) ++ x :: rest)
      else (parseLoop fuel ((pre ++ a.cut) ++ x :: rest) (pre ++ a.cut).length).map
        fun r => (a :: r.1, r.2) := by
  have hcut : pre ++ (a.key ++ 0 :: (a.value ++ 0 :: x :: rest)) = (pre ++ a.cut) ++ x :: rest := by
    simp [EnvAttribute.cut]
  have hnext : pre.length + a.text.length + 1 = (pre ++ a.cut).length := by
    rw [EnvAttribute.length_text]
    simp only [EnvAttribute.cut, List.length_append, List.length_cons, List.length_nil]
    omega
  have hget : ((pre ++ a.cut) ++ x :: rest)[(pre ++ a.cut).length]? = some x := by
    rw [List.getElem?_append_right (Nat.le_refl _), Nat.sub_self]
    rfl
  conv_lhs => unfold parseLoop
  simp only [strlen_text ha, parseLine_text ha, Option.bind_eq_bind, Option.bind_some, hcut, hnext,
    hget]
  split
  · rfl
  · cases parseLoop fuel ((pre ++ a.cut) ++ x :: rest) (pre ++ a.cut).length with
    | none => rfl
    | some r => rfl

end

theorem EnvAttribute.Ok.text_head {a : EnvAttribute} (ha : a.Ok) : ∃ x xs, a.text = x :: xs ∧ x ≠ 0 := by
  cases ht : a.text with
  | nil => exact absurd (congrArg List.length ht) (Nat.ne_of_gt a.text_pos)
  | cons x xs =>
    refine ⟨x, xs, rfl, fun hx => ha.text_nul ?_⟩
    rw [ht, hx]
    exact List.mem_cons_self

/-- The loop reads the texts in front of it back, one by one. -/
theorem parseLoop_render {zeros : Nat} (hz : 0 < zeros) {attrs : List EnvAttribute}
    (hne : attrs ≠ []) (hok : ∀ a ∈ attrs, a.Ok) (pre : List Byte) {fuel : Nat}
    (hfuel : attrs.length ≤ fuel) :
    ∃ data, parseLoop fuel (pre ++ (render attrs ++ List.replicate zeros 0)) pre.length =
      some (attrs, data) := by
  obtain ⟨z, rfl⟩ := Nat.exists_eq_add_one_of_ne_zero (Nat.ne_of_gt hz)
  induction attrs generalizing pre fuel with
  | nil => exact absurd rfl hne
  | cons a as ih =>
    obtain ⟨fuel, rfl⟩ := Nat.exists_eq_add_one_of_ne_zero (n := fuel) (by simp at hfuel; omega)
    have ha := hok a List.mem_cons_self
    rw [render_cons, List.append_assoc, List.cons_append]
    cases as with
    | nil =>
      rw [render_nil, List.nil_append, List.replicate_succ, parseLoop_text ha, if_pos rfl]
      exact ⟨_, rfl⟩
    | cons b as =>
      obtain ⟨x, xs, hx, hx0⟩ := (hok b (by simp)).text_head
      have htail : render (b :: as) ++ List.replicate (z + 1) 0 =
          x :: (xs ++ 0 :: render as ++ List.replicate (z + 1) 0) := by
        rw [render_cons, hx]
        simp
      obtain ⟨data, h⟩ := ih (List.cons_ne_nil b as) (fun y hy => hok y (List.mem_cons_of_mem _ hy))
        (pre ++ a.cut) (show (b :: as).length ≤ fuel by simpa using hfuel)
      rw [htail] at h
      rw [htail, parseLoop_text ha, if_neg hx0, h]
      exact ⟨data, rfl⟩

theorem length_le_render (attrs : List EnvAttribute) : attrs.length ≤ (render attrs).length := by
  induction attrs with
  | nil => exact Nat.le_refl 0
  | cons a as ih =>
    rw [render_cons, List.length_append, List.length_cons, List.length_cons]
    omega

/-- Padded texts are read back. -/
theorem envParseAttribute_padded {size : Nat} {attrs : List EnvAttribute} (hne : attrs ≠ [])
    (hok : ∀ a ∈ attrs, a.Ok) (hfit : (render attrs).length < size) :
    ∃ data, envParseAttribute (padded size (render attrs)) = some (attrs, data) := by
  have hlen : (padded size (render attrs)).length = size := by
    simp only [padded, List.length_append, List.length_replicate]
    omega
  unfold envParseAttribute
  rw [hlen]
  exact parseLoop_render (by omega) hne hok []
    (Nat.le_trans (length_le_render attrs) (Nat.le_of_lt hfit))

/-- **What a save and a read make of the attributes**. -/
theorem parse_revert {size : Nat} {attrs : List EnvAttribute} (hne : attrs ≠ [])
    (hok : ∀ a ∈ attrs, a.Ok) (hfit : (render attrs).length < size) :
    ∃ data data', envRevertAttribute size attrs = some data ∧ data.length = size ∧
      envParseAttribute data = some (kept attrs, data') := by
  have hle := length_render_kept attrs
  obtain ⟨data', h⟩ := envParseAttribute_padded (kept_ne_nil hne)
    (fun a ha => hok a (kept_subset a ha)) (Nat.lt_of_le_of_lt hle hfit)
  refine ⟨_, data', envRevertAttribute_eq hne (writesFit_of_render hfit.le), ?_, h⟩
  simp only [padded, List.length_append, List.length_replicate]
  omega

/-- **Round trip**: attributes with texts of at least three bytes that fit the data are
read back as they were written. -/
theorem parse_revert_self {size : Nat} {attrs : List EnvAttribute} (hne : attrs ≠ [])
    (hkey : ∀ a ∈ attrs, a.key ≠ [] ∧ 0x3D ∉ a.key ∧ 0 ∉ a.key ∧ a.key.length ≤ 255)
    (hvalue : ∀ a ∈ attrs, 0 ∉ a.value ∧ a.value.length ≤ 1023)
    (htext : ∀ a ∈ attrs, 3 ≤ a.text.length) (hfit : (render attrs).length < size) :
    ∃ data data', envRevertAttribute size attrs = some data ∧
      envParseAttribute data = some (attrs, data') := by
  have hok : ∀ a ∈ attrs, a.Ok := fun a ha =>
    ⟨(hkey a ha).2.2.1, (hkey a ha).2.1, (hvalue a ha).1, (hkey a ha).2.2.2, (hvalue a ha).2⟩
  obtain ⟨data, data', h1, -, h2⟩ := parse_revert hne hok hfit
  rw [kept_eq_self htext] at h2
  exact ⟨data, data', h1, h2⟩

/-- `a=b=c`, and an empty `mac`. -/
def bootArgs : List EnvAttribute := [⟨bytes "a", bytes "b=c"⟩, ⟨bytes "mac", []⟩]

theorem parse_revert_bootArgs : ∃ data data', envRevertAttribute 16 bootArgs = some data ∧
    envParseAttribute data = some (bootArgs, data') :=
  parse_revert_self (List.cons_ne_nil _ _) (by decide) (by decide) (by decide) (by decide)

end VendorAmlogic.BootEnv
