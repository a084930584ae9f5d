import Mathlib.Data.List.TakeWhile
import VendorAmlogic.Lib.CString
import VendorAmlogic.Lib.Separated

/-!
# Which volumes are read-only

`DigManager::isVolumeRo` of `services/data_integrity_guard/DigManager.cpp`, on
the text of a mount table. It reads one buffer of the text and goes by the first
line in it that has the path anywhere, and by the first of `ro,` and `rw,` that
this line has anywhere.
-/

namespace VendorAmlogic.Dig

open VendorAmlogic.Lib

/-! ## The table -/

/-- Fields are written without blanks, newlines and zero bytes. -/
def Plain (f : List Byte) : Prop := ∀ b ∈ f, b ≠ 0x20 ∧ b ≠ 0x0a ∧ b ≠ 0

instance (f : List Byte) : Decidable (Plain f) :=
  inferInstanceAs (Decidable (∀ b ∈ f, _))

/-- A line of the table; `rest` is what comes behind the options. -/
structure Entry where
  device : List Byte
  mountPoint : List Byte
  fstype : List Byte
  options : List (List Byte)
  rest : List (List Byte)
  plain : ∀ f ∈ device :: mountPoint :: fstype :: (options ++ rest), Plain f
  single : ∀ o ∈ options, 0x2c ∉ o

def Entry.line (e : Entry) : List Byte :=
  [0x20].intercalate
    (e.device :: e.mountPoint :: e.fstype :: [0x2c].intercalate e.options :: e.rest)

/-- The text of a table. -/
def render (table : List Entry) : List Byte := table.flatMap fun e => e.line ++ [0x0a]

/-- The options `ro` and `rw`. -/
def optRo : List Byte := [0x72, 0x6f]
def optRw : List Byte := [0x72, 0x77]

/-- The volumes that are watched. -/
inductive Volume where
  | data
  | cache

def Volume.path : Volume → List Byte
  | .data => bytes "/data"
  | .cache => bytes "/cache"

/-! ## `isVolumeRo` -/

/-- `fRead` into a buffer of this size. -/
def fRead (text : List Byte) (buffsize : Nat) : List Byte := text.take (buffsize - 1)

/-- The next line, and what is behind its newline. -/
def nextLine (start : List Byte) : Option (List Byte × List Byte) :=
  (strchr 0x0a start).map fun rest => (start.take (start.length - rest.length), rest.tail)

theorem nextLine_length {start line rest : List Byte} (h : nextLine start = some (line, rest)) :
    rest.length < start.length := by
  obtain ⟨s, hs, heq⟩ := Option.map_eq_some_iff.mp h
  obtain ⟨-, rfl⟩ := Prod.mk.inj heq
  have hle := (strchr_suffix hs).length_le
  cases s with
  | nil =>
    cases start with
    | nil => cases hs
    | cons d start => exact Nat.succ_pos _
  | cons d s =>
    rw [List.length_cons] at hle
    exact hle

/-- The loop over the lines. -/
def roLoop (device start : List Byte) : Int :=
  match h : nextLine start with
  | none => -1
  | some (line, rest) =>
    if (strstr device line).isSome then
      if (strstr (optRo ++ [0x2c]) line).isSome then 1
      else if (strstr (optRw ++ [0x2c]) line).isSome then 0
      else -1
    else roLoop device rest
termination_by start.length
decreasing_by exact nextLine_length h

/-- `isVolumeRo`, where the mount table has this text. -/
def isVolumeRo (text device : List Byte) : Int := roLoop device (cstr (fRead text 4096))

/-! ## What it goes by -/

/-- The path is in the line. -/
def Entry.Mentions (e : Entry) (path : List Byte) : Prop :=
  ∃ f ∈ e.device :: e.mountPoint :: e.fstype :: (e.options ++ e.rest), path <:+: f

instance (e : Entry) (path : List Byte) : Decidable (e.Mentions path) :=
  inferInstanceAs (Decidable (∃ f ∈ _, _))

/-- The option with a comma is in the line: within a field, or at the end of any option but the
last. -/
def Entry.Says (e : Entry) (opt : List Byte) : Prop :=
  (∃ f ∈ e.device :: e.mountPoint :: e.fstype :: e.rest, opt ++ [0x2c] <:+: f) ∨
    ∃ o ∈ e.options.dropLast, opt <:+ o

instance (e : Entry) (opt : List Byte) : Decidable (e.Says opt) :=
  inferInstanceAs (Decidable (_ ∨ _))

/-- The entries whose lines are within the first `n` bytes. -/
def visible (n : Nat) : List Entry → List Entry
  | [] => []
  | e :: table =>
    if e.line.length + 1 ≤ n then e :: visible (n - (e.line.length + 1)) table else []

/-- The first line in view that has the path. -/
def firstMention (table : List Entry) (path : List Byte) : Option Entry :=
  (visible 4095 table).find? fun e => e.Mentions path

section
variable {e : Entry} {path opt line rest : List Byte}

theorem line_mentions (h0 : path ≠ []) (hblank : 0x20 ∉ path) (hcomma : 0x2c ∉ path) :
    path <:+: e.line ↔ e.Mentions path := by
  unfold Entry.line Entry.Mentions
  rw [infix_intercalate h0 hblank]
  simp only [List.exists_mem_cons_iff, infix_intercalate h0 hcomma, List.mem_append, or_and_right,
    exists_or]

theorem line_says (hblank : 0x20 ∉ opt) (hcomma : 0x2c ∉ opt) :
    opt ++ [0x2c] <:+: e.line ↔ e.Says opt := by
  have hsep : (0x20 : Byte) ∉ opt ++ [0x2c] := by
    rw [List.mem_append, not_or]
    exact ⟨hblank, by decide⟩
  unfold Entry.line Entry.Says
  rw [infix_intercalate (by simp) hsep]
  simp only [List.exists_mem_cons_iff, snoc_infix_intercalate hcomma e.single]
  generalize (∃ o ∈ e.options.dropLast, opt <:+ o) = atEnd
  generalize (∃ f ∈ e.rest, opt ++ [0x2c] <:+: f) = inRest
  tauto

/-- Lines have neither newlines nor zero bytes. -/
theorem line_plain {c : Byte} (hc : c = 0x0a ∨ c = 0) (e : Entry) : c ∉ e.line := by
  have hplain (f : List Byte) (hf : Plain f) : ¬ [c] <:+: f := by
    intro h
    obtain ⟨-, hnewline, hzero⟩ := hf c (h.subset List.mem_cons_self)
    rcases hc with rfl | rfl
    · exact hnewline rfl
    · exact hzero rfl
  have hsep : (0x20 : Byte) ∉ [c] ∧ (0x2c : Byte) ∉ [c] := by
    rcases hc with rfl | rfl <;> decide
  intro hmem
  obtain ⟨f, hf, hin⟩ :=
    (line_mentions (by simp) hsep.1 hsep.2).1 ((List.singleton_infix_iff c e.line).2 hmem)
  exact hplain f (e.plain f hf) hin

theorem nextLine_eq (h : 0x0a ∉ line) : nextLine (line ++ 0x0a :: rest) = some (line, rest) := by
  unfold nextLine
  rw [strchr_append h, Option.map_some, List.tail_cons, List.length_append, Nat.add_sub_cancel,
    List.take_left]

theorem nextLine_none (h : 0x0a ∉ line) : nextLine line = none := by
  unfold nextLine
  rw [strchr_eq_none h]
  rfl

theorem roLoop_eq (path start : List Byte) : roLoop path start =
    match nextLine start with
    | none => -1
    | some (line, rest) =>
      if path <:+: line then
        if optRo ++ [0x2c] <:+: line then 1 else if optRw ++ [0x2c] <:+: line then 0 else -1
      else roLoop path rest := by
  rw [roLoop]
  split
  · rename_i h
    rw [h]
  · rename_i h
    rw [h]
    simp only [strstr_isSome_iff]

/-- The loop stops at the first line in view that has the path. -/
theorem roLoop_render (h0 : path ≠ []) (hblank : 0x20 ∉ path) (hcomma : 0x2c ∉ path) (n : Nat)
    (table : List Entry) : roLoop path ((render table).take n) =
      match (visible n table).find? fun e => e.Mentions path with
      | none => -1
      | some e => if e.Says optRo then 1 else if e.Says optRw then 0 else -1 := by
  induction table generalizing n with
  | nil =>
    rw [render, List.flatMap_nil, List.take_nil, roLoop_eq, nextLine_none List.not_mem_nil]
    rfl
  | cons e table ih =>
    have hrender : render (e :: table) = e.line ++ 0x0a :: render table := by
      rw [render, List.flatMap_cons, List.append_assoc, List.singleton_append]
      rfl
    have hline := line_plain (.inl rfl) e
    rw [hrender, visible, roLoop_eq]
    by_cases hfit : e.line.length + 1 ≤ n
    · have htake : (e.line ++ 0x0a :: render table).take n =
          e.line ++ 0x0a :: (render table).take (n - (e.line.length + 1)) := by
        obtain ⟨m, rfl⟩ := Nat.exists_eq_add_of_le hfit
        rw [Nat.add_sub_cancel_left, List.take_append, List.take_of_length_le (by omega),
          show e.line.length + 1 + m - e.line.length = m + 1 by omega, List.take_succ_cons]
      rw [if_pos hfit, htake, nextLine_eq hline]
      simp only [line_mentions h0 hblank hcomma, line_says (by decide : 0x20 ∉ optRo) (by decide),
        line_says (by decide : 0x20 ∉ optRw) (by decide)]
      by_cases hhere : e.Mentions path
      · rw [if_pos hhere, List.find?_cons_of_pos (by simpa using hhere)]
      · rw [if_neg hhere, List.find?_cons_of_neg (by simpa using hhere), ih]
    · have hcut : 0x0a ∉ (e.line ++ 0x0a :: render table).take n := by
        rw [List.take_append_of_le_length (by omega)]
        exact fun hmem => hline (List.mem_of_mem_take hmem)
      rw [if_neg hfit, nextLine_none hcut]
      rfl

theorem isVolumeRo_render (v : Volume) (table : List Entry) :
    isVolumeRo (render table) v.path =
      match firstMention table v.path with
      | none => -1
      | some e => if e.Says optRo then 1 else if e.Says optRw then 0 else -1 := by
  have hzero : 0 ∉ (render table).take 4095 := by
    intro hmem
    obtain ⟨e, -, hline⟩ := List.mem_flatMap.mp (List.mem_of_mem_take hmem)
    rcases List.mem_append.mp hline with hline | hnewline
    · exact line_plain (.inr rfl) e hline
    · exact absurd (List.mem_singleton.mp hnewline) (by decide)
  have hall : cstr ((render table).take 4095) = (render table).take 4095 := by
    rw [cstr, List.takeWhile_eq_self_iff]
    intro b hb
    rw [decide_eq_true_eq]
    rintro rfl
    exact hzero hb
  have hpath : v.path ≠ [] ∧ 0x20 ∉ v.path ∧ 0x2c ∉ v.path := by
    cases v <;> decide
  unfold isVolumeRo fRead firstMention
  rw [hall, roLoop_render hpath.1 hpath.2.1 hpath.2.2]

/-! ## What it is for -/

/-- The table has an entry at this path with this option. -/
def MountedWith (table : List Entry) (path opt : List Byte) : Prop :=
  ∃ e ∈ table, e.mountPoint = path ∧ opt ∈ e.options

instance (table : List Entry) (path opt : List Byte) : Decidable (MountedWith table path opt) :=
  inferInstanceAs (Decidable (∃ e ∈ table, _))

/-- The table has an entry at this path. -/
def Mounted (table : List Entry) (path : List Byte) : Prop := ∃ e ∈ table, e.mountPoint = path

instance (table : List Entry) (path : List Byte) : Decidable (Mounted table path) :=
  inferInstanceAs (Decidable (∃ e ∈ table, _))

/-- The result tells how the volume is mounted. -/
structure RoRight (table : List Entry) (v : Volume) : Prop where
  readOnly : isVolumeRo (render table) v.path = 1 ↔ MountedWith table v.path optRo
  writable : isVolumeRo (render table) v.path = 0 ↔ MountedWith table v.path optRw
  unmounted : isVolumeRo (render table) v.path = -1 ↔ ¬ Mounted table v.path

/-- The entry's line is the first one with the path, and it ends within the first 4095 bytes of the
table. -/
structure Decides (table : List Entry) (path : List Byte) (e : Entry) : Prop where
  mentions : e.Mentions path
  first : ∃ before after, table = before ++ e :: after ∧ (∀ x ∈ before, ¬ x.Mentions path) ∧
    (render (before ++ [e])).length ≤ 4095

/-- The table is one that the loop understands: what is mounted at the path has one of the options `ro`
and `rw`, and not both; where something is mounted there, a line with the path is in view; and the
first such line has `ro,` somewhere when `ro` is an option there, and only then, and the same of `rw,`
if it has no `ro,`. -/
structure TellsMount (table : List Entry) (path : List Byte) : Prop where
  oneMode : Mounted table path → (MountedWith table path optRo ↔ ¬ MountedWith table path optRw)
  inView : Mounted table path → ∃ e, Decides table path e
  ro : ∀ e, Decides table path e → (e.Says optRo ↔ MountedWith table path optRo)
  rw : ∀ e, Decides table path e → ¬ e.Says optRo → (e.Says optRw ↔ MountedWith table path optRw)

variable {table l : List Entry} {v : Volume}

theorem MountedWith.mounted (h : MountedWith table path opt) : Mounted table path := by
  obtain ⟨e, he, hpath, -⟩ := h
  exact ⟨e, he, hpath⟩

theorem length_render_cons (e : Entry) (l : List Entry) :
    (render (e :: l)).length = e.line.length + 1 + (render l).length := by
  rw [render, List.flatMap_cons, List.length_append, List.length_append]
  rfl

/-- In view are the lines that end within the first bytes. -/
theorem prefix_visible_iff {n : Nat} :
    l <+: visible n table ↔ l <+: table ∧ (render l).length ≤ n := by
  induction table generalizing l n with
  | nil =>
    rw [visible, List.prefix_nil]
    refine ⟨fun hl => ⟨hl, ?_⟩, And.left⟩
    rw [hl]
    exact Nat.zero_le n
  | cons y table ih =>
    cases l with
    | nil => exact iff_of_true (List.nil_prefix) ⟨List.nil_prefix, Nat.zero_le n⟩
    | cons x l =>
      rw [visible, length_render_cons, List.cons_prefix_cons]
      by_cases hfit : y.line.length + 1 ≤ n
      · rw [if_pos hfit, List.cons_prefix_cons, ih, and_assoc]
        refine and_congr_right fun hxy => and_congr_right fun _ => ?_
        rw [hxy]
        omega
      · rw [if_neg hfit, List.prefix_nil]
        refine iff_of_false (List.cons_ne_nil x l) fun ⟨⟨hxy, _⟩, hlen⟩ => hfit ?_
        rw [← hxy]
        omega

theorem firstMention_eq_some : firstMention table path = some e ↔ Decides table path e := by
  rw [firstMention, List.find?_eq_some_iff_append, decide_eq_true_eq]
  have hbegins : ∀ before, (∃ after, visible 4095 table = before ++ e :: after) ↔
      (∃ after, table = before ++ e :: after) ∧ (render (before ++ [e])).length ≤ 4095 := by
    intro before
    have hiff : before ++ [e] <+: visible 4095 table ↔ _ := prefix_visible_iff
    simpa only [List.IsPrefix, List.append_assoc, List.singleton_append, eq_comm] using hiff
  constructor
  · rintro ⟨hmentions, before, after, hvisible, hbefore⟩
    obtain ⟨⟨after, htable⟩, hlen⟩ := (hbegins before).mp ⟨after, hvisible⟩
    exact ⟨hmentions, before, after, htable, fun x hx => by simpa using hbefore x hx, hlen⟩
  · rintro ⟨hmentions, before, after, htable, hbefore, hlen⟩
    obtain ⟨after, hvisible⟩ := (hbegins before).mpr ⟨⟨after, htable⟩, hlen⟩
    exact ⟨hmentions, before, after, hvisible, fun x hx => by simpa using hbefore x hx⟩

theorem Decides.unique {e' : Entry} (h : Decides table path e) (h' : Decides table path e') : e = e' :=
  Option.some.inj ((firstMention_eq_some.mpr h).symm.trans (firstMention_eq_some.mpr h'))

/-- The three results, by the line that decides. -/
theorem isVolumeRo_eq_one :
    isVolumeRo (render table) v.path = 1 ↔ ∃ e, Decides table v.path e ∧ e.Says optRo := by
  simp only [isVolumeRo_render, ← firstMention_eq_some]
  cases firstMention table v.path with
  | none => simp
  | some e => by_cases hro : e.Says optRo <;> by_cases hrw : e.Says optRw <;> simp [hro, hrw]

theorem isVolumeRo_eq_zero :
    isVolumeRo (render table) v.path = 0 ↔
      ∃ e, Decides table v.path e ∧ ¬ e.Says optRo ∧ e.Says optRw := by
  simp only [isVolumeRo_render, ← firstMention_eq_some]
  cases firstMention table v.path with
  | none => simp
  | some e => by_cases hro : e.Says optRo <;> by_cases hrw : e.Says optRw <;> simp [hro, hrw]

theorem isVolumeRo_eq_neg_one :
    isVolumeRo (render table) v.path = -1 ↔
      ∀ e, Decides table v.path e → ¬ e.Says optRo ∧ ¬ e.Says optRw := by
  simp only [isVolumeRo_render, ← firstMention_eq_some]
  cases firstMention table v.path with
  | none => simp
  | some e => by_cases hro : e.Says optRo <;> by_cases hrw : e.Says optRw <;> simp [hro, hrw]

/-- In a table that the loop understands, the result is right. -/
theorem TellsMount.roRight (h : TellsMount table v.path) : RoRight table v where
  readOnly := by
    rw [isVolumeRo_eq_one]
    constructor
    · rintro ⟨e, he, hsays⟩
      exact (h.ro e he).mp hsays
    · intro hro
      obtain ⟨e, he⟩ := h.inView hro.mounted
      exact ⟨e, he, (h.ro e he).mpr hro⟩
  writable := by
    rw [isVolumeRo_eq_zero]
    constructor
    · rintro ⟨e, he, hsays, hsays'⟩
      exact (h.rw e he hsays).mp hsays'
    · intro hrw
      obtain ⟨e, he⟩ := h.inView hrw.mounted
      have hsays : ¬ e.Says optRo := fun hs => (h.oneMode hrw.mounted).mp ((h.ro e he).mp hs) hrw
      exact ⟨e, he, hsays, (h.rw e he hsays).mpr hrw⟩
  unmounted := by
    rw [isVolumeRo_eq_neg_one]
    constructor
    · intro hnone hmount
      obtain ⟨e, he⟩ := h.inView hmount
      obtain ⟨hro, hrw⟩ := hnone e he
      rw [h.rw e he hro] at hrw
      rw [h.ro e he] at hro
      exact hro ((h.oneMode hmount).mpr hrw)
    · intro hmount e he
      have hro : ¬ e.Says optRo := fun hs => hmount ((h.ro e he).mp hs).mounted
      exact ⟨hro, fun hs => hmount ((h.rw e he hro).mp hs).mounted⟩

/-- A right result shows that the loop understood the table. -/
theorem RoRight.tellsMount (h : RoRight table v) : TellsMount table v.path := by
  -- where something is mounted, the result is one of two, and a line in view decides
  have hresult (hmount : Mounted table v.path) : ∃ e, Decides table v.path e ∧
      (isVolumeRo (render table) v.path = 1 ∨ isVolumeRo (render table) v.path = 0) := by
    by_contra hno
    apply h.unmounted.mp (isVolumeRo_eq_neg_one.mpr fun e he => ?_) hmount
    by_contra hsays
    by_cases hro : e.Says optRo
    · exact hno ⟨e, he, .inl (isVolumeRo_eq_one.mpr ⟨e, he, hro⟩)⟩
    · have hrw : e.Says optRw := by_contra fun hrw => hsays ⟨hro, hrw⟩
      exact hno ⟨e, he, .inr (isVolumeRo_eq_zero.mpr ⟨e, he, hro, hrw⟩)⟩
  refine ⟨fun hmount => ?_, fun hmount => ?_, fun e he => ?_, fun e he hro => ?_⟩
  · rw [← h.readOnly, ← h.writable]
    obtain ⟨-, -, hr | hr⟩ := hresult hmount <;> rw [hr] <;> decide
  · obtain ⟨e, he, -⟩ := hresult hmount
    exact ⟨e, he⟩
  · rw [← h.readOnly, isVolumeRo_eq_one]
    refine ⟨fun hs => ⟨e, he, hs⟩, ?_⟩
    rintro ⟨e', he', hs⟩
    exact he.unique he' ▸ hs
  · rw [← h.writable, isVolumeRo_eq_zero]
    refine ⟨fun hs => ⟨e, he, hro, hs⟩, ?_⟩
    rintro ⟨e', he', -, hs⟩
    exact he.unique he' ▸ hs

end

/-- A writable volume that would be remounted after an error. -/
def dataRemount : Entry where
  device := bytes "/dev/block/data"
  mountPoint := bytes "/data"
  fstype := bytes "ext4"
  options := [optRw, bytes "seclabel", bytes "errors=remount-ro", bytes "data=ordered"]
  rest := [bytes "0", bytes "0"]
  plain := by simp [Plain, bytes, optRw]
  single := by simp [bytes, optRw]

theorem decides_dataRemount : Decides [dataRemount] Volume.data.path dataRemount where
  mentions := by
    refine ⟨bytes "/data", ?_, List.infix_refl _⟩
    exact List.mem_cons_of_mem _ List.mem_cons_self
  first := ⟨[], [], rfl, fun _ h => absurd h List.not_mem_nil, by decide⟩

/-- The option that is not the last and ends in `ro`. -/
theorem says_dataRemount : dataRemount.Says optRo :=
  .inr ⟨bytes "errors=remount-ro", by decide, bytes "errors=remount-", by decide⟩

end VendorAmlogic.Dig
