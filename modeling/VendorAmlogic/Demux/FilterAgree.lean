import VendorAmlogic.Lib.MaskFilter
import VendorAmlogic.Demux.DvrParse
import VendorAmlogic.Demux.Emu

/-!
# Section filters of the two drivers

Both drivers turn the parameters of a section filter into masks and compare a
section with them. Entry `0` goes to the table id in both. The emulation puts
entry `i ≥ 1` at byte `i + 2`, behind the two length bytes; the DVR driver puts
it at byte `i` and drops the entries `1` and `2`.

Either filter is a `Lib.MaskFilter` over the first 18 bytes of a section, and
filters that accept the same sections mask the same bits.
-/

namespace VendorAmlogic.Demux

open VendorAmlogic.Lib

/-! ## The match loops -/

theorem matchLoop_iff (f : DvrFilter) (buf : List Byte) (is : List (Fin 16)) (c n : Bool) :
    matchLoop f buf is c n = true ↔
      (∀ i ∈ is, (buf.getD i 0 ^^^ f.filter i) &&& f.maskandmode i = 0) ∧
      ((c = true ∨ ∃ i ∈ is, f.maskandnotmode i ≠ 0) →
        (n = true ∨ ∃ i ∈ is, (buf.getD i 0 ^^^ f.filter i) &&& f.maskandnotmode i ≠ 0)) := by
  induction is generalizing c n with
  | nil => cases c <;> cases n <;> simp [matchLoop]
  | cons i is ih =>
    unfold matchLoop
    simp only
    split
    · rename_i hne
      exact iff_of_false Bool.false_ne_true fun h => hne (h.1 i List.mem_cons_self)
    · rename_i heq
      rw [ih, List.forall_mem_cons, and_assoc, and_iff_right (not_not.mp heq)]
      simp only [List.mem_cons, exists_eq_or_imp, Bool.or_eq_true, decide_eq_true_iff, or_assoc]

theorem Emu.matchLoop_iff (f : Emu.Filter) (buf : Mem) (is : List (Fin 18)) (n : Bool) :
    Emu.matchLoop f buf is n = true ↔
      (∀ i ∈ is, (buf i ^^^ f.value i) &&& f.maskandmode i = 0) ∧
      (f.neq = true → (n = true ∨ ∃ i ∈ is, (buf i ^^^ f.value i) &&& f.maskandnotmode i ≠ 0)) := by
  induction is generalizing n with
  | nil => cases h : f.neq <;> cases n <;> simp [Emu.matchLoop, h]
  | cons i is ih =>
    unfold Emu.matchLoop
    simp only
    split
    · rename_i hne
      exact iff_of_false Bool.false_ne_true fun h => hne (h.1 i List.mem_cons_self)
    · rename_i heq
      rw [ih, List.forall_mem_cons, and_assoc, and_iff_right (not_not.mp heq)]
      simp only [List.mem_cons, exists_eq_or_imp, Bool.or_eq_true, decide_eq_true_iff, or_assoc]

/-! ## The masks -/

/-- A mask split by mode is the mask. -/
theorem split_or (m o : Byte) : (m &&& ~~~ o) ||| (m &&& ~~~ (~~~ o)) = m := by
  rw [BitVec.not_not, ← BitVec.and_or_distrib_left, BitVec.or_comm, BitVec.or_not_self,
    BitVec.and_allOnes]

theorem split_disjoint (m o : Byte) : (m &&& ~~~ o) &&& (m &&& ~~~ (~~~ o)) = 0 := by
  rw [BitVec.not_not, MaskFilter.and_eq_zero_iff]
  intro k hk h
  simp only [BitVec.getLsbD_and, Bool.and_eq_true] at h
  simp [h.2]

/-- A filter that has entry `e i` of the parameters at byte `i`. -/
def entryFilter (p : SctFilterParams) (e : Fin 18 → Option (Fin 16)) : MaskFilter (Fin 18) 8 where
  value i := (e i).elim 0 p.filter
  pos i := (e i).elim 0 fun j => p.mask j &&& ~~~ p.mode j
  neg i := (e i).elim 0 fun j => p.mask j &&& ~~~ (~~~ p.mode j)
  disjoint i := by
    cases e i with
    | none => exact BitVec.zero_and
    | some j => exact split_disjoint _ _

theorem masked_entryFilter (p : SctFilterParams) (e : Fin 18 → Option (Fin 16)) (i : Fin 18) :
    (entryFilter p e).masked i = (e i).elim 0 p.mask := by
  simp only [MaskFilter.masked, entryFilter]
  cases e i with
  | none => exact BitVec.zero_or
  | some j => exact split_or _ _

/-- The entry the DVR driver has at a byte. -/
def dvrEntryOf (i : Fin 18) : Option (Fin 16) :=
  if i.1 = 1 ∨ i.1 = 2 then none else if h : i.1 < 16 then some ⟨i.1, h⟩ else none

section
variable (p : SctFilterParams) (sec : List Byte)

theorem Emu.exists_entryOf (j : Fin 16) : ∃ i, Emu.entryOf i = some j := by
  revert j; decide

/-- The first bytes of a section. -/
def firstBytes : Fin 18 → Byte := fun i => sec.getD i 0

theorem dvrEntryOf_cast (i : Fin 16) :
    dvrEntryOf (Fin.castLE (by decide) i) = if i = 1 ∨ i = 2 then none else some i := by
  revert i; decide

/-- Past the first 16 bytes there is nothing to check. -/
theorem forall_byte_iff {P : Fin 18 → Prop} (h : ∀ i, dvrEntryOf i = none → P i) :
    (∀ i, P i) ↔ ∀ i : Fin 16, P (Fin.castLE (by decide) i) := by
  refine ⟨fun hp i => hp _, fun hp i => ?_⟩
  by_cases hi : i.1 < 16
  · exact hp ⟨i.1, hi⟩
  · exact h i (by simp [dvrEntryOf, hi])

theorem exists_byte_iff {P : Fin 18 → Prop} (h : ∀ i, dvrEntryOf i = none → ¬ P i) :
    (∃ i, P i) ↔ ∃ i : Fin 16, P (Fin.castLE (by decide) i) := by
  rw [← not_iff_not, not_exists, not_exists]
  exact forall_byte_iff h

/-- The match loop of `check_sec` after `dvr_set_sec_filter`. -/
theorem secMatch_iff (f : DvrFilter) :
    secMatch (secProgram p f) sec = true ↔ (entryFilter p dvrEntryOf).Accepts (firstBytes sec) := by
  have hpos : ∀ i : Fin 16, (entryFilter p dvrEntryOf).pos (Fin.castLE (by decide) i) =
      (secProgram p f).maskandmode i := by
    intro i
    simp only [entryFilter, dvrEntryOf_cast, secProgram]
    split <;> rfl
  have hneg : ∀ i : Fin 16, (entryFilter p dvrEntryOf).neg (Fin.castLE (by decide) i) =
      (secProgram p f).maskandnotmode i := by
    intro i
    simp only [entryFilter, dvrEntryOf_cast, secProgram]
    split <;> rfl
  have hval : ∀ i : Fin 16, (entryFilter p dvrEntryOf).value (Fin.castLE (by decide) i) =
      (secProgram p f).filter i := by
    intro i
    simp only [entryFilter, dvrEntryOf_cast, secProgram]
    split <;> rfl
  have hbyte : ∀ i : Fin 16, firstBytes sec (Fin.castLE (by decide) i) = sec.getD i 0 := fun _ => rfl
  rw [secMatch, matchLoop_iff, MaskFilter.Accepts,
    forall_byte_iff fun i hi => by simp [entryFilter, hi],
    exists_byte_iff fun i hi => by simp [entryFilter, hi],
    exists_byte_iff fun i hi => by simp [entryFilter, hi]]
  simp only [hpos, hneg, hval, hbyte, List.mem_finRange, true_implies, true_and,
    Bool.false_eq_true, false_or]

/-- The match loop of `parse_payload` after `emu_set_sec_filter`. -/
theorem Emu.secMatch_mem (f : Emu.Filter) (b : Mem) :
    Emu.secMatch (Emu.emuSetSecFilter f p) b = true ↔
      (entryFilter p Emu.entryOf).Accepts fun i => b i := by
  have hany : (Emu.emuSetSecFilter f p).neq = true ↔ ∃ i, (entryFilter p Emu.entryOf).neg i ≠ 0 := by
    simp only [Emu.emuSetSecFilter, List.any_eq_true, List.mem_finRange, true_and,
      decide_eq_true_iff]
    constructor
    · rintro ⟨j, hj⟩
      obtain ⟨i, hi⟩ := Emu.exists_entryOf j
      exact ⟨i, by simpa [entryFilter, hi] using hj⟩
    · rintro ⟨i, hi⟩
      cases he : Emu.entryOf i with
      | none => simp [entryFilter, he] at hi
      | some j => exact ⟨j, by simpa [entryFilter, he] using hi⟩
  -- the value at the length bytes is that of the filter before
  let g : MaskFilter (Fin 18) 8 :=
    { entryFilter p Emu.entryOf with value := (Emu.emuSetSecFilter f p).value }
  have hg : g.Accepts (fun i => b i) ↔ (entryFilter p Emu.entryOf).Accepts fun i => b i := by
    refine MaskFilter.accepts_of_same_masks (f := g) (g := entryFilter p Emu.entryOf)
      (fun _ => rfl) (fun _ => rfl) (fun i hi => ?_) _
    cases he : Emu.entryOf i with
    | none => exact absurd (by simp [g, MaskFilter.masked, entryFilter, he]) hi
    | some j => simp [g, Emu.emuSetSecFilter, entryFilter, he]
  rw [← hg, Emu.secMatch, Emu.matchLoop_iff, hany]
  simp only [List.mem_finRange, true_implies, true_and, Bool.false_eq_true, false_or]
  rfl

theorem Emu.secMatch_iff (f : Emu.Filter) :
    Emu.secMatch (Emu.emuSetSecFilter f p) (sec.getD · 0) = true ↔
      (entryFilter p Emu.entryOf).Accepts (firstBytes sec) :=
  Emu.secMatch_mem p f (sec.getD · 0)

end

/-! ## Agreement -/

/-- A section, of any table, that has all the bytes a filter can look at. -/
structure IsLongSection (sec : List Byte) : Prop where
  length_ge : 18 ≤ sec.length
  length_eq : sec.length = secLen (sec.getD 1 0) (sec.getD 2 0)
  length_le : sec.length ≤ 4096

/-- The drivers accept the same sections under the parameters `p`. -/
def Agree (p : SctFilterParams) : Prop :=
  ∀ (f : DvrFilter) (f' : Emu.Filter) (sec : List Byte), IsLongSection sec →
    (secMatch (secProgram p f) sec = true ↔
      Emu.secMatch (Emu.emuSetSecFilter f' p) (sec.getD · 0) = true)

/-- Any 18 bytes, with the length bytes set to their number. -/
def ofBytes (x : Fin 18 → Byte) : List Byte :=
  List.ofFn fun i : Fin 18 => if i = 1 then 0 else if i = 2 then 15 else x i

theorem firstBytes_ofBytes (x : Fin 18 → Byte) (i : Fin 18) :
    firstBytes (ofBytes x) i = if i = 1 then 0 else if i = 2 then 15 else x i := by
  rw [firstBytes, ofBytes, List.getD_eq_getElem?_getD, List.getElem?_ofFn, dif_pos i.isLt]
  rfl

theorem isLongSection_ofBytes (x : Fin 18 → Byte) : IsLongSection (ofBytes x) := by
  have h : (ofBytes x).length = 18 := List.length_ofFn
  have h1 : (ofBytes x).getD 1 0 = 0 := firstBytes_ofBytes x 1
  have h2 : (ofBytes x).getD 2 0 = 15 := firstBytes_ofBytes x 2
  exact ⟨h.ge, by rw [h, h1, h2]; rfl, by rw [h]; decide⟩

/-- Filters that leave the length bytes alone and accept the same sections accept
the same bytes. -/
theorem accepts_iff_of_agree {p : SctFilterParams} (h : Agree p) (f : DvrFilter) (f' : Emu.Filter)
    (x : Fin 18 → Byte) :
    (entryFilter p dvrEntryOf).Accepts x ↔ (entryFilter p Emu.entryOf).Accepts x := by
  have hsec := h f f' _ (isLongSection_ofBytes x)
  rw [secMatch_iff, Emu.secMatch_iff] at hsec
  have hcongr : ∀ e : Fin 18 → Option (Fin 16), e 1 = none → e 2 = none →
      ((entryFilter p e).Accepts (firstBytes (ofBytes x)) ↔ (entryFilter p e).Accepts x) := by
    intro e he1 he2
    refine (entryFilter p e).accepts_congr fun i k hk hm => ?_
    rw [masked_entryFilter] at hm
    have h1 : i ≠ 1 := by rintro rfl; simp [he1] at hm
    have h2 : i ≠ 2 := by rintro rfl; simp [he2] at hm
    rw [firstBytes_ofBytes, if_neg h1, if_neg h2]
  rw [hcongr dvrEntryOf rfl rfl, hcongr Emu.entryOf rfl rfl] at hsec
  exact hsec

/-- Masks that are the same at every byte in both layouts are zero: each entry but
the first is seen again two bytes on, until it falls off the end. -/
theorem masks_zero_of_shift {mask : Fin 16 → Byte}
    (h : ∀ i, (dvrEntryOf i).elim 0 mask = (Emu.entryOf i).elim 0 mask) :
    ∀ i, i ≠ 0 → mask i = 0 := by
  have hend : ∀ i : Fin 16, i = 14 ∨ i = 15 → mask i = 0 := by
    rintro i (rfl | rfl)
    · exact (h 16).symm
    · exact (h 17).symm
  have hstep : ∀ n, (hn : n + 3 < 16) → mask ⟨n + 1, by omega⟩ = mask ⟨n + 3, hn⟩ := by
    intro n hn
    have := h ⟨n + 3, by omega⟩
    simp only [dvrEntryOf, Emu.entryOf, hn, ↓reduceDIte, Option.elim_some,
      show ¬ (n + 3 = 1 ∨ n + 3 = 2) by omega, show ¬ n + 3 = 0 by omega,
      show 3 ≤ n + 3 by omega, ↓reduceIte] at this
    exact this.symm
  -- from the last entries down
  have hdown : ∀ k n, (hn : n + 1 < 16) → 15 ≤ n + k → mask ⟨n + 1, hn⟩ = 0 := by
    intro k
    induction k using Nat.strong_induction_on with
    | h k ih =>
      intro n hn hk
      by_cases hlast : n + 3 < 16
      · rw [hstep n hlast]
        exact ih (k - 2) (by omega) (n + 2) hlast (by omega)
      · exact hend _ (by simp only [Fin.ext_iff]; simp; omega)
  intro i hi
  have hpos : 0 < i.1 := Nat.pos_of_ne_zero fun h0 => hi (Fin.ext h0)
  have := hdown 15 (i.1 - 1) (by omega) (by omega)
  rwa [show (⟨i.1 - 1 + 1, by omega⟩ : Fin 16) = i from Fin.ext (by simp only; omega)] at this

/-- **The drivers agree on section filters** exactly when the parameters compare
nothing but the table id: every mask byte behind the first is zero. -/
theorem drivers_agree_iff (p : SctFilterParams) : Agree p ↔ ∀ i, i ≠ 0 → p.mask i = 0 := by
  constructor
  · intro h
    exact masks_zero_of_shift fun i => by
      have hm := MaskFilter.masked_eq_of_agree
        (accepts_iff_of_agree h (dvrOpen.dvrFilters 0) (Emu.emuAllocFilter fun _ => 0)) i
      rwa [masked_entryFilter, masked_entryFilter] at hm
  · intro h f f' sec _
    rw [secMatch_iff, Emu.secMatch_iff]
    have hentry : ∀ i, (dvrEntryOf i = some 0 ∧ Emu.entryOf i = some 0) ∨
        (dvrEntryOf i ≠ some 0 ∧ Emu.entryOf i ≠ some 0) := by decide
    have hz : ∀ e : Option (Fin 16), e ≠ some 0 → e.elim 0 p.mask = 0 := by
      intro e he
      cases e with
      | none => rfl
      | some j => exact h j fun hj => he (by rw [hj])
    have hsame : ∀ i, dvrEntryOf i = Emu.entryOf i ∨
        ((entryFilter p dvrEntryOf).masked i = 0 ∧ (entryFilter p Emu.entryOf).masked i = 0) := by
      intro i
      rw [masked_entryFilter, masked_entryFilter]
      rcases hentry i with ⟨h1, h2⟩ | ⟨h1, h2⟩
      · exact .inl (h1.trans h2.symm)
      · exact .inr ⟨hz _ h1, hz _ h2⟩
    refine MaskFilter.accepts_of_same_masks (fun i => ?_) (fun i => ?_) (fun i hi => ?_) _
    · rcases hsame i with he | ⟨h1, h2⟩
      · simp only [entryFilter, he]
      · rw [((MaskFilter.masked_eq_zero _).1 h1).1, ((MaskFilter.masked_eq_zero _).1 h2).1]
    · rcases hsame i with he | ⟨h1, h2⟩
      · simp only [entryFilter, he]
      · rw [((MaskFilter.masked_eq_zero _).1 h1).2, ((MaskFilter.masked_eq_zero _).1 h2).2]
    · rcases hsame i with he | ⟨h1, -⟩
      · simp only [entryFilter, he]
      · exact absurd h1 hi

/-- A filter on the version byte of a section (entry 3): the emulation compares byte
5, the DVR driver byte 3. -/
theorem drivers_disagree_on_version :
    ¬ Agree ⟨0x11, fun _ => 0, fun i => if i = 3 then 0xFF else 0, fun _ => 0⟩ := by
  intro h
  have hm := MaskFilter.masked_eq_of_agree
    (accepts_iff_of_agree h (dvrOpen.dvrFilters 0) (Emu.emuAllocFilter fun _ => 0)) 3
  rw [masked_entryFilter, masked_entryFilter] at hm
  exact absurd hm (by decide)

end VendorAmlogic.Demux
