import VendorAmlogic.Demux.FilterAgree

/-!
# Filters that look behind the section

The match loops of both drivers look at a fixed number of bytes, 18 and 16,
however short the section is. Behind a short section the buffer has whatever
was there before. `MaskFilter.DecidedOn` says when the bytes of the section
settle the comparison.
-/

namespace VendorAmlogic.Demux

open VendorAmlogic.Lib

/-- The section is at the start of the buffer of a channel. -/
def Emu.Starts (b : Mem) (s : List Byte) : Prop := b.read 0 s.length = s

def Starts (b : SecBuf) (s : List Byte) : Prop := b.1.take s.length = s

/-- Under the parameters `p` the emulation filters the section alike in every buffer. -/
def Emu.FiltersAlike (p : SctFilterParams) (s : List Byte) : Prop :=
  ∀ (f : Emu.Filter) (b b' : Mem), Emu.Starts b s → Emu.Starts b' s →
    Emu.secMatch (Emu.emuSetSecFilter f p) b = Emu.secMatch (Emu.emuSetSecFilter f p) b'

/-- Under the parameters `p` the DVR driver filters the section alike in every buffer. -/
def FiltersAlike (p : SctFilterParams) (s : List Byte) : Prop :=
  ∀ (f : DvrFilter) (b b' : SecBuf), Starts b s → Starts b' s →
    secMatch (secProgram p f) b.1 = secMatch (secProgram p f) b'.1

/-- The bytes of the section settle the comparison of a filter. -/
def Settles (f : MaskFilter (Fin 18) 8) (s : List Byte) : Prop :=
  f.DecidedOn (fun i => i.1 < s.length) (firstBytes s)

section
variable {s : List Byte}

theorem Emu.starts_iff {b : Mem} : Emu.Starts b s ↔ ∀ i, i < s.length → b i = s.getD i 0 := by
  constructor
  · intro h i hi
    have hget := Mem.getD_read (m := b) (o := 0) hi
    rw [Nat.zero_add, show b.read 0 s.length = s from h] at hget
    exact hget.symm
  · intro h
    refine Mem.eq_read rfl fun i hi => ?_
    rw [Nat.zero_add]
    exact h i hi

theorem Starts.getD {b : SecBuf} (h : Starts b s) {i : Nat} (hi : i < s.length) :
    b.1.getD i 0 = s.getD i 0 := by
  have hget : (b.1.take s.length).getD i 0 = b.1.getD i 0 := by
    rw [List.getD_eq_getElem?_getD, List.getElem?_take_of_lt hi, List.getD_eq_getElem?_getD]
  rw [← hget, show b.1.take s.length = s from h]

/-- A buffer with the section, then the bytes `y`. -/
def Emu.bufOf (s : List Byte) (y : Fin 18 → Byte) : Mem :=
  fun i => if i < s.length then s.getD i 0 else if h : i < 18 then y ⟨i, h⟩ else 0

theorem Emu.filtersAlike_iff (p : SctFilterParams) (s : List Byte) :
    Emu.FiltersAlike p s ↔ Settles (entryFilter p Emu.entryOf) s := by
  rw [Settles, ← MaskFilter.dependsOnly_iff]
  constructor
  · intro h y z hy hz
    have hbuf : ∀ x : Fin 18 → Byte, (∀ i : Fin 18, i.1 < s.length → x i = firstBytes s i) →
        (fun i : Fin 18 => Emu.bufOf s x i) = x := by
      intro x hx
      funext i
      by_cases hi : i.1 < s.length
      · rw [Emu.bufOf, if_pos hi, hx i hi, firstBytes]
      · rw [Emu.bufOf, if_neg hi, dif_pos i.isLt]
    have hst : ∀ x, Emu.Starts (Emu.bufOf s x) s := fun x =>
      Emu.starts_iff.2 fun i hi => if_pos hi
    have heq := h (Emu.emuAllocFilter fun _ => 0) _ _ (hst y) (hst z)
    rw [Bool.eq_iff_iff, Emu.secMatch_mem, Emu.secMatch_mem, hbuf y hy, hbuf z hz] at heq
    exact heq
  · intro h f b b' hb hb'
    rw [Bool.eq_iff_iff, Emu.secMatch_mem, Emu.secMatch_mem]
    exact h _ _ (fun i hi => Emu.starts_iff.1 hb i hi) fun i hi => Emu.starts_iff.1 hb' i hi

/-- A buffer that starts with the bytes `y`. -/
def bufWith (y : Fin 18 → Byte) : SecBuf :=
  ⟨List.ofFn y ++ List.replicate 4078 0, by
    rw [List.length_append, List.length_ofFn, List.length_replicate]⟩

theorem firstBytes_bufWith (y : Fin 18 → Byte) : firstBytes (bufWith y).1 = y := by
  funext i
  rw [firstBytes, bufWith, List.getD_eq_getElem?_getD, List.getElem?_append_left (by simp),
    List.getElem?_ofFn, dif_pos i.isLt]
  rfl

theorem starts_bufWith {y : Fin 18 → Byte} (hs : s.length ≤ 18)
    (hy : ∀ i : Fin 18, i.1 < s.length → y i = firstBytes s i) : Starts (bufWith y) s := by
  apply List.ext_getElem?
  intro i
  by_cases hi : i < s.length
  · have hyi := hy ⟨i, by omega⟩ hi
    rw [firstBytes, List.getD_eq_getElem?_getD, List.getElem?_eq_getElem hi, Option.getD_some] at hyi
    rw [List.getElem?_take_of_lt hi, bufWith, List.getElem?_append_left (by simp; omega),
      List.getElem?_ofFn, dif_pos (by omega), List.getElem?_eq_getElem hi, hyi]
  · rw [List.getElem?_eq_none (by simp; omega), List.getElem?_eq_none (by omega)]

theorem filtersAlike_iff (p : SctFilterParams) (s : List Byte) :
    FiltersAlike p s ↔ Settles (entryFilter p dvrEntryOf) s := by
  rw [Settles, ← MaskFilter.dependsOnly_iff]
  constructor
  · intro h y z hy hz
    by_cases hs : s.length ≤ 18
    · have heq := h (dvrOpen.dvrFilters 0) _ _ (starts_bufWith hs hy) (starts_bufWith hs hz)
      rw [Bool.eq_iff_iff, secMatch_iff, secMatch_iff, firstBytes_bufWith, firstBytes_bufWith] at heq
      exact heq
    · -- the section has every byte that is looked at
      have hyz : y = z := funext fun i => (hy i (by omega)).trans (hz i (by omega)).symm
      rw [hyz]
  · intro h f b b' hb hb'
    rw [Bool.eq_iff_iff, secMatch_iff, secMatch_iff]
    exact h _ _ (fun i hi => hb.getD hi) fun i hi => hb'.getD hi

end

/-- **A driver filters a section alike in every buffer exactly when the bytes of the section settle
the comparison.** -/
theorem filters_section_alike_iff (p : SctFilterParams) (s : List Byte) :
    (Emu.FiltersAlike p s ↔ Settles (entryFilter p Emu.entryOf) s) ∧
      (FiltersAlike p s ↔ Settles (entryFilter p dvrEntryOf) s) :=
  ⟨Emu.filtersAlike_iff p s, filtersAlike_iff p s⟩

/-- A filter on the version byte. -/
def versionFilter : SctFilterParams := ⟨0x11, fun _ => 0, fun i => if i.1 = 3 then 0xFF else 0, fun _ => 0⟩

/-- A section of three bytes has no version byte: what is in the buffer behind it is compared. -/
theorem filters_beyond_section :
    IsWhole [0x42, 0, 0] ∧ ¬ Emu.FiltersAlike versionFilter [0x42, 0, 0] ∧
      ¬ FiltersAlike versionFilter [0x42, 0, 0] := by
  refine ⟨⟨by decide, by decide⟩, ?_, ?_⟩
  · rw [Emu.filtersAlike_iff, Settles, MaskFilter.DecidedOn]
    decide
  · rw [filtersAlike_iff, Settles, MaskFilter.DecidedOn]
    decide

end VendorAmlogic.Demux
