import VendorAmlogic.Timeshift.File

/-!
# Sub-files over ideal files

`aml_timeshift_subfile_*` of `am_av/aml/aml.c`, where `read` and `write` at a
descriptor's offset transfer everything up to the end of the file and a new
sub-file can always be created. Each sub-file has a read and a write
descriptor, with an offset of its own.
-/

namespace VendorAmlogic.Timeshift

open VendorAmlogic.Lib

/-- `AV_TimeshiftSubfile_t` with the file behind its two descriptors. -/
structure Subfile where
  findex : Nat
  data : List Byte
  rpos : Nat
  wpos : Nat

/-- The sub-file control part of `AV_TimeshiftFile_t`; `curR` and `curW` are
positions in the list. -/
structure Subfiles where
  files : List Subfile
  lastSubIndex : Nat
  subFileSize : Nat
  curR : Option Nat
  curW : Option Nat

/-- `aml_timeshift_new_subfile` in timeshift mode: an empty file. -/
def amlTimeshiftNewSubfile (s : Subfiles) : Subfile × Subfiles :=
  (⟨s.lastSubIndex, [], 0, 0⟩, { s with lastSubIndex := s.lastSubIndex + 1 })

/-- `aml_timeshift_subfile_open` in timeshift mode. -/
def amlTimeshiftSubfileOpen : Subfiles :=
  let r := amlTimeshiftNewSubfile ⟨[], 0, subFileSize, none, none⟩
  { r.2 with files := [r.1] }

/-- `aml_timeshift_subfile_read`; `fuel` bounds the sub-files still to try. -/
def subfileReadFrom (s : Subfiles) (cur size : Nat) : Nat → Subfiles × Int × List Byte
  | 0 => (s, 0, [])
  | fuel + 1 =>
    match s.files[cur]? with
    | none => (s, -1, [])
    | some f =>
      let b := (f.data.drop f.rpos).take size
      let s := { s with files := s.files.set cur { f with rpos := f.rpos + b.length }, curR := cur }
      if b.length = 0 then
        match s.files[cur + 1]? with
        | some g =>
          -- reach the end, turn to the next sub file
          subfileReadFrom { s with files := s.files.set (cur + 1) { g with rpos := 0 } }
            (cur + 1) size fuel
        | none => (s, 0, [])
      else (s, b.length, b)

def amlTimeshiftSubfileRead (s : Subfiles) (size : Nat) : Subfiles × Int × List Byte :=
  if s.files = [] then (s, -1, [])
  else subfileReadFrom s (s.curR.getD 0) size s.files.length

/-- `aml_timeshift_data_write`, whose size is an `int`. -/
def amlTimeshiftDataWrite (f : Subfile) (buf : List Byte) : Subfile × Int :=
  let d := buf.take (i32 buf.length).toNat
  ({ f with data := overwrite f.data f.wpos d, wpos := f.wpos + d.length }, d.length)

/-- Write at the offset of sub-file `cur`, which is below the sub-file size. -/
def writeAt (s : Subfiles) (cur : Nat) (buf : List Byte) : Subfiles × Int :=
  match s.files[cur]? with
  | none => (s, -1)
  | some f =>
    let r := amlTimeshiftDataWrite f buf
    ({ s with files := s.files.set cur r.1, curW := cur }, r.2)

/-- `aml_timeshift_subfile_write`. After a switch the offset is `0` and the
recursive call writes. -/
def amlTimeshiftSubfileWrite (s : Subfiles) (buf : List Byte) : Subfiles × Int :=
  if s.files = [] then (s, -1)
  else
    let cur := s.curW.getD 0
    match s.files[cur]? with
    | none => (s, -1)
    | some f =>
      if f.wpos ≥ s.subFileSize then
        match s.files[cur + 1]? with
        | some g => writeAt { s with files := s.files.set (cur + 1) { g with wpos := 0 } } (cur + 1) buf
        | none =>
          let r := amlTimeshiftNewSubfile s
          writeAt { r.2 with files := s.files ++ [r.1] } (cur + 1) buf
      else writeAt s cur buf

/-- `lseek64` to an absolute offset; a negative one is refused. -/
def lseekSet (pos : Nat) (o : Int) : Nat := if o < 0 then pos else o.toNat

/-- `aml_timeshift_subfile_seek`; its result is not used. -/
def amlTimeshiftSubfileSeek (s : Subfiles) (offset : Int) (read : Bool) : Subfiles :=
  let subIndex := offset.tdiv s.subFileSize
  let subOffset := offset.tmod s.subFileSize
  match s.files.findIdx? fun f => (f.findex : Int) = subIndex with
  | none => s
  | some i =>
    match s.files[i]? with
    | none => s
    | some f =>
      if read then
        { s with files := s.files.set i { f with rpos := lseekSet f.rpos subOffset }, curR := i }
      else
        { s with files := s.files.set i { f with wpos := lseekSet f.wpos subOffset }, curW := i }

theorem subfileReadFrom_le (s : Subfiles) (cur size fuel : Nat) :
    (subfileReadFrom s cur size fuel).2.1 ≤ size := by
  induction fuel generalizing s cur with
  | zero => simp [subfileReadFrom]
  | succ fuel ih =>
    unfold subfileReadFrom
    split
    · simp only; omega
    · rename_i f _
      simp only
      split
      · split
        · exact ih _ _
        · simp
      · simp only [List.length_take]; omega

theorem subfileRead_le (s : Subfiles) (n : Nat) : (amlTimeshiftSubfileRead s n).2.1 ≤ n := by
  unfold amlTimeshiftSubfileRead
  split
  · simp only; omega
  · exact subfileReadFrom_le _ _ _ _

theorem writeAt_le (s : Subfiles) (cur : Nat) (b : List Byte) : (writeAt s cur b).2 ≤ b.length := by
  unfold writeAt
  split
  · simp only; omega
  · simp only [amlTimeshiftDataWrite, List.length_take]; omega

theorem subfileWrite_le (s : Subfiles) (b : List Byte) :
    (amlTimeshiftSubfileWrite s b).2 ≤ b.length := by
  unfold amlTimeshiftSubfileWrite
  split
  · simp only; omega
  · simp only
    split
    · simp only; omega
    · split
      · split <;> exact writeAt_le _ _ _
      · exact writeAt_le _ _ _

/-- The sub-file layer of the source over ideal files. -/
def idealOps : SubfileOps Subfiles where
  read := amlTimeshiftSubfileRead
  write := amlTimeshiftSubfileWrite
  seek := amlTimeshiftSubfileSeek
  read_le := subfileRead_le
  write_le := subfileWrite_le

/-! ## One sub-file -/

/-- The control part with one sub-file, its descriptors at `rpos` and `wpos`. -/
structure Single (s : Subfiles) (data : List Byte) (rpos wpos : Nat) : Prop where
  files : s.files = [⟨0, data, rpos, wpos⟩]
  subFileSize : s.subFileSize = Timeshift.subFileSize
  curR : s.curR.getD 0 = 0
  curW : s.curW.getD 0 = 0

theorem single_open : Single amlTimeshiftSubfileOpen [] 0 0 := ⟨rfl, rfl, rfl, rfl⟩

section
variable {s : Subfiles} {data : List Byte} {rpos wpos : Nat}

theorem Single.read (h : Single s data rpos wpos) (n : Nat) :
    Single (amlTimeshiftSubfileRead s n).1 data (rpos + ((data.drop rpos).take n).length) wpos ∧
      (amlTimeshiftSubfileRead s n).2 = (↑((data.drop rpos).take n).length, (data.drop rpos).take n) := by
  obtain ⟨h1, h2, h3, h4⟩ := h
  simp only [amlTimeshiftSubfileRead, h1, h3, List.cons_ne_nil, ↓reduceIte, List.length_cons,
    List.length_nil, Nat.zero_add, subfileReadFrom, List.getElem?_cons_zero, List.set_cons_zero,
    List.getElem?_cons_succ, List.getElem?_nil]
  by_cases h0 : ((data.drop rpos).take n).length = 0
  · rw [if_pos h0, h0, List.length_eq_zero_iff.mp h0]
    exact ⟨⟨rfl, h2, rfl, h4⟩, rfl⟩
  · rw [if_neg h0]
    exact ⟨⟨rfl, h2, rfl, h4⟩, rfl⟩

theorem Single.write (h : Single s data rpos wpos) (hw : wpos < Timeshift.subFileSize)
    {b : List Byte} (hb : b.length ≤ Timeshift.subFileSize) :
    Single (amlTimeshiftSubfileWrite s b).1 (overwrite data wpos b) rpos (wpos + b.length) ∧
      (amlTimeshiftSubfileWrite s b).2 = b.length := by
  obtain ⟨h1, h2, h3, h4⟩ := h
  have hi : (i32 b.length).toNat = b.length := by
    unfold Timeshift.subFileSize at hb
    rw [i32_eq_self (by omega) (by omega)]; omega
  have hn : ¬ wpos ≥ Timeshift.subFileSize := by omega
  simp only [amlTimeshiftSubfileWrite, h1, h2, h4, List.cons_ne_nil, ↓reduceIte,
    List.getElem?_cons_zero, if_neg hn, writeAt, amlTimeshiftDataWrite, hi, List.take_length,
    List.set_cons_zero]
  exact ⟨⟨rfl, rfl, h3, rfl⟩, trivial⟩

/-- A seek to an offset inside the first sub-file. -/
theorem Single.seek (h : Single s data rpos wpos) {o : Nat} (ho : o < Timeshift.subFileSize)
    (read : Bool) :
    Single (amlTimeshiftSubfileSeek s o read) data (if read then o else rpos)
      (if read then wpos else o) := by
  obtain ⟨h1, h2, h3, h4⟩ := h
  have hd : (o : Int).tdiv (Timeshift.subFileSize : Int) = 0 := by
    rw [Int.tdiv_eq_ediv_of_nonneg (by omega)]; exact Int.ediv_eq_zero_of_lt (by omega) (by omega)
  have hm : (o : Int).tmod (Timeshift.subFileSize : Int) = o := by
    rw [Int.tmod_eq_emod_of_nonneg (by omega)]; exact Int.emod_eq_of_lt (by omega) (by omega)
  have hl : ∀ p, lseekSet p (o : Int) = o := by
    intro p; unfold lseekSet; rw [if_neg (by omega)]; rfl
  have h0 : ((0 : Nat) : Int) = 0 := rfl
  simp only [amlTimeshiftSubfileSeek, h1, h2, hd, hm, hl, List.findIdx?_cons, h0,
    decide_true, ↓reduceIte, List.getElem?_cons_zero, List.set_cons_zero]
  cases read
  · exact ⟨rfl, rfl, h3, rfl⟩
  · exact ⟨rfl, rfl, rfl, h4⟩

end

end VendorAmlogic.Timeshift
