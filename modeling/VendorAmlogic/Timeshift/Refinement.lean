import VendorAmlogic.Lib.History
import VendorAmlogic.Timeshift.Bookkeeping
import VendorAmlogic.Timeshift.Subfile

/-!
# The ring file refines the ring

Over ideal sub-files the ring file is compared with `Lib.History`, call by call.
The refinement rests on the descriptors standing where the cursors say. They
do after every call of `CallOk`, and the excluded calls are those after which
they do not, or which keep the wrong bytes:

* a write or a read that ends exactly at the end of the file is not split, so
  its descriptor stays there while the cursor goes to `0`;
* a write that overruns the reader moves `read` but not the read descriptor;
* a write of more than `size` bytes keeps the first `size` of them;
* a seek past the end of an empty ring leaves `read = -1`, `avail = 1`.
-/

namespace VendorAmlogic.Timeshift

open VendorAmlogic.Lib

inductive Call where
  | write (buf : List Byte)
  | read (n : Nat)
  | seek (offset : Int)

/-- One call; the output is the bytes it returns. -/
def callStep (t : TFile Subfiles) : Call → TFile Subfiles × List Byte
  | .write buf => ((amlTimeshiftFileWrite idealOps t buf).1, [])
  | .read n =>
    let r := amlTimeshiftFileRead idealOps t n
    (r.1, r.2.2.take r.2.1.toNat)
  | .seek o => ((amlTimeshiftFileSeek idealOps t o).1, [])

/-- The ring a call acts on. An offset before the oldest byte goes to it, one
behind the end to the last byte kept. -/
def ringStep (r : History Byte) : Call → History Byte × List Byte
  | .write buf => (r.write buf, [])
  | .read n => (r.read n, r.peek n)
  | .seek o => (r.seek (if o > r.kept.length then r.kept.length - 1 else o.toNat), [])

/-- The calls after which the descriptors stand where the cursors say. -/
def CallOk (t : TFile Subfiles) : Call → Prop
  | .write buf => (buf.length : Int) ≤ t.size ∧ t.write + buf.length ≠ t.size ∧
      (t.avail + buf.length ≤ t.size ∨ (t.avail = t.size ∧ (buf.length : Int) = t.size))
  | .read n => t.read + toRead t n ≠ t.size
  | .seek o => t.total = 0 → o ≤ 0

instance (t : TFile Subfiles) : (c : Call) → Decidable (CallOk t c)
  | .write _ => inferInstanceAs (Decidable (_ ∧ _ ∧ _))
  | .read _ => inferInstanceAs (Decidable (_ ≠ _))
  | .seek _ => inferInstanceAs (Decidable (_ → _))

/-- The ring file holds the ring: the file is read from `start` on, and the
descriptors are at the cursors. -/
structure Holds (t : TFile Subfiles) (r : History Byte) : Prop where
  ready : Ready t
  book : Book t
  size_eq : t.size = subFileSize
  cap_eq : r.cap = subFileSize
  total_eq : t.total = r.kept.length
  avail_eq : t.avail = r.avail
  filled : t.start = 0 ∨ t.total = t.size
  file : ∃ data, Single t.sub data t.read.toNat t.write.toNat ∧
    data.length = r.kept.length ∧ r.kept = rotated data t.start.toNat

theorem holds_open : Holds (amlTimeshiftFileOpen amlTimeshiftSubfileOpen) (History.empty subFileSize) where
  ready := (running_openState amlTimeshiftSubfileOpen 0).ready
  book := book_openState amlTimeshiftSubfileOpen 0
  size_eq := rfl
  cap_eq := rfl
  total_eq := rfl
  avail_eq := rfl
  filled := .inl rfl
  file := ⟨[], single_open, rfl, rfl⟩

section
variable {t : TFile Subfiles} {r : History Byte}

/-! ## Reads -/

/-- The reader's distance from the oldest byte and its place in the file. -/
theorem Holds.read_pos (h : Holds t r) :
    t.read.toNat = (t.start.toNat + (r.kept.length - r.avail)) % subFileSize := by
  have hb := h.book
  have h1 := hb.start_nonneg; have h2 := hb.avail_le; have h3 := h.total_eq
  have h4 := h.avail_eq
  rw [hb.read_eq, h.size_eq]
  have e : t.start + t.total - t.avail =
      ((t.start.toNat + (r.kept.length - r.avail) : Nat) : Int) := by omega
  rw [e, ← Int.natCast_mod, Int.toNat_natCast]

theorem Holds.toRead_eq (h : Holds t r) (n : Nat) : toRead t n = min n r.avail := by
  have := h.avail_eq
  unfold toRead; omega

/-- The bytes before the end of the file, when the read stays in it. -/
theorem Holds.peek_whole (h : Holds t r) {data : List Byte} (hl : data.length = r.kept.length)
    (hk : r.kept = rotated data t.start.toNat) {m : Nat} (hm : m ≤ r.avail)
    (hw : t.read + m ≤ t.size) :
    (r.kept.drop (r.kept.length - r.avail)).take m = (data.drop t.read.toNat).take m ∧
      t.read.toNat + m ≤ data.length := by
  have hb := h.book
  have h1 := hb.start_nonneg; have h2 := hb.start_lt; have h3 := h.total_eq
  have h4 := h.avail_eq; have h5 := h.size_eq; have h6 := hb.total_le; have h7 := r.avail_le
  have h8 := h.filled; have h9 := hb.read_nonneg
  have hp := h.read_pos
  generalize ho : r.kept.length - r.avail = o at hp
  by_cases hs : t.start.toNat + o < subFileSize
  · rw [Nat.mod_eq_of_lt hs] at hp
    have hle : t.start.toNat + o + m ≤ data.length := by omega
    rw [hk, peek_before hle, hp]
    exact ⟨rfl, by omega⟩
  · -- only a full ring has data behind the end
    rw [Nat.mod_eq_sub_mod (by omega), Nat.mod_eq_of_lt (by omega)] at hp
    rw [hk, peek_behind (by omega) (by omega) (by omega), hp,
      show data.length = subFileSize by omega]
    exact ⟨rfl, by omega⟩

/-- The bytes of a read that goes on at the beginning of the file. -/
theorem Holds.peek_split (h : Holds t r) {data : List Byte} (hl : data.length = r.kept.length)
    (hk : r.kept = rotated data t.start.toNat) {m : Nat} (hm : m ≤ r.avail)
    (hw : t.size < t.read + m) :
    (r.kept.drop (r.kept.length - r.avail)).take m =
        data.drop t.read.toNat ++ data.take (m - toEnd t) ∧
      data.length = subFileSize := by
  have hb := h.book
  have h1 := hb.start_nonneg; have h2 := hb.start_lt; have h3 := h.total_eq
  have h4 := h.avail_eq; have h5 := h.size_eq; have h6 := hb.total_le; have h7 := r.avail_le
  have h8 := h.filled; have h9 := hb.read_nonneg
  have hp := h.read_pos
  have he := toEnd_cast hb
  generalize ho : r.kept.length - r.avail = o at hp
  by_cases hs : t.start.toNat + o < subFileSize
  · rw [Nat.mod_eq_of_lt hs] at hp
    have hfull : data.length = subFileSize := by omega
    rw [hk, peek_across (by omega) (by omega) (by omega), hp,
      show m - (data.length - (t.start.toNat + o)) = m - toEnd t by omega]
    exact ⟨rfl, hfull⟩
  · rw [Nat.mod_eq_sub_mod (by omega), Nat.mod_eq_of_lt (by omega)] at hp
    omega

/-- Reading `m` of the available bytes moves reader and descriptor together. -/
theorem Holds.consume (h : Holds t r) {data : List Byte} (hl : data.length = r.kept.length)
    (hk : r.kept = rotated data t.start.toNat) {n : Nat} {s : Subfiles}
    (hs : Single s data ((t.read + toRead t n) % t.size).toNat t.write.toNat) :
    Holds { t with sub := s, read := (t.read + toRead t n) % t.size,
                   avail := t.avail - toRead t n } (r.read n) where
  ready := ⟨h.ready.1, h.ready.2, h.ready.3⟩
  book := (h.book.consume (Int.natCast_nonneg _) (toRead_le h.book n)).withSub s
  size_eq := h.size_eq
  cap_eq := h.cap_eq
  total_eq := h.total_eq
  avail_eq := by
    have := h.avail_eq
    simp only [History.read, h.toRead_eq]; omega
  filled := h.filled
  file := ⟨data, hs, hl, hk⟩

/-- A read with nothing to read. -/
theorem Holds.read_empty (h : Holds t r) {n : Nat} (ha : t.avail ≤ 0) :
    Holds (callStep t (.read n)).1 (r.read n) ∧ (callStep t (.read n)).2 = r.peek n := by
  have hb := h.book
  have h0 := hb.read_nonneg; have h1 := hb.read_lt; have h4 := h.avail_eq
  have hm := h.toRead_eq n
  obtain ⟨data, hs, hl, hk⟩ := h.file
  have hz : toRead t n = 0 := by omega
  simp only [callStep, r.peek_eq_take n, ← hm]
  rw [amlTimeshiftFileRead_empty h.ready ha, hz, List.take_zero]
  refine ⟨?_, rfl⟩
  have hz' : t.avail = 0 := by have := hb.avail_nonneg; omega
  have hc := h.consume hl hk (n := n) (s := t.sub)
    (by rw [hz, Int.natCast_zero, Int.add_zero, Int.emod_eq_of_lt h0 h1]; exact hs)
  rw [hz, Int.natCast_zero, Int.add_zero, Int.emod_eq_of_lt h0 h1, Int.sub_zero] at hc
  rwa [show ({ t with avail := 0 } : TFile Subfiles) = t by rw [← hz']]

/-- A read that takes one transfer. -/
theorem Holds.read_whole (h : Holds t r) {n : Nat} (ha : 0 < t.avail)
    (hw : t.read + toRead t n < t.size) :
    Holds (callStep t (.read n)).1 (r.read n) ∧ (callStep t (.read n)).2 = r.peek n := by
  have hb := h.book
  have h0 := hb.read_nonneg; have h1 := hb.read_lt; have h4 := h.avail_eq; have h5 := h.size_eq
  have hm := h.toRead_eq n
  obtain ⟨data, hs, hl, hk⟩ := h.file
  simp only [callStep, r.peek_eq_take n, ← hm]
  rw [amlTimeshiftFileRead_loop h.ready hb ha]
  obtain ⟨hp, hle⟩ := h.peek_whole hl hk (m := toRead t n) (by omega) (by omega)
  obtain ⟨hs1, hs2⟩ := hs.read (toRead t n)
  have hlen : ((data.drop t.read.toNat).take (toRead t n)).length = toRead t n := by
    simp only [List.length_take, List.length_drop]; omega
  have hret : (idealOps.read t.sub (toRead t n)).2.1 = toRead t n := by
    show (amlTimeshiftSubfileRead _ _).2.1 = _
    rw [hs2]; simp only; omega
  have hbuf : (idealOps.read t.sub (toRead t n)).2.2 = (data.drop t.read.toNat).take (toRead t n) := by
    show (amlTimeshiftSubfileRead _ _).2.2 = _
    rw [hs2]
  rw [hlen] at hs1
  have hs' : Single (idealOps.read t.sub (toRead t n)).1 data
      ((t.read + toRead t n) % t.size).toNat t.write.toNat := by
    rw [Int.emod_eq_of_lt (by omega) hw,
      show (t.read + toRead t n).toNat = t.read.toNat + toRead t n by omega]
    exact hs1
  rw [readLoop_whole h.ready hb (by omega)]
  by_cases hz : toRead t n = 0
  · rw [readTail_fail idealOps hb.avail_nonneg (by rw [hret, hz]; simp)]
    have hc := h.consume hl hk hs'
    simp only [hz, Int.natCast_zero, Int.add_zero, Int.sub_zero, Int.emod_eq_of_lt h0 h1] at hc ⊢
    exact ⟨hc, by simp⟩
  · rw [readTail_eq idealOps (Nat.le_refl _) (toRead_le hb n) h0 (by rw [hret]; omega)]
    simp only [hret, hbuf, Int.sub_self, Int.zero_add, List.nil_append, Int.toNat_natCast]
    exact ⟨h.consume hl hk hs', by rw [hp, List.take_take, Nat.min_self]⟩

/-- A read up to the end of the file, and then from the beginning. -/
theorem Holds.read_split (h : Holds t r) {n : Nat} (ha : 0 < t.avail)
    (hw : t.size < t.read + toRead t n) :
    Holds (callStep t (.read n)).1 (r.read n) ∧ (callStep t (.read n)).2 = r.peek n := by
  have hb := h.book
  have h0 := hb.read_nonneg; have h1 := hb.read_lt; have h4 := h.avail_eq; have h5 := h.size_eq
  have hm := h.toRead_eq n
  obtain ⟨data, hs, hl, hk⟩ := h.file
  simp only [callStep, r.peek_eq_take n, ← hm]
  rw [amlTimeshiftFileRead_loop h.ready hb ha]
  obtain ⟨hp, hfull⟩ := h.peek_split hl hk (m := toRead t n) (by omega) hw
  have he := toEnd_cast hb
  obtain ⟨hs1, hs2⟩ := hs.read (toEnd t)
  have hall : (data.drop t.read.toNat).take (toEnd t) = data.drop t.read.toNat :=
    List.take_of_length_le (by simp only [List.length_drop]; omega)
  have hlen : (data.drop t.read.toNat).length = toEnd t := by
    simp only [List.length_drop]; omega
  rw [hall, hlen] at hs1 hs2
  have hs3 := hs1.seek (o := 0) (by decide) true
  simp only [↓reduceIte, Int.natCast_zero] at hs3
  obtain ⟨hs4, hs5⟩ := hs3.read (toRead t n - toEnd t)
  have hlen2 : ((data.drop 0).take (toRead t n - toEnd t)).length = toRead t n - toEnd t := by
    have := toRead_le hb n; have := hb.avail_le; have := hb.total_le
    simp only [List.drop_zero, List.length_take]; omega
  rw [hlen2] at hs4 hs5
  have e1 : (idealOps.read t.sub (toEnd t)).2 = (↑(toEnd t), data.drop t.read.toNat) := hs2
  have e2 : (idealOps.read (idealOps.seek (idealOps.read t.sub (toEnd t)).1 0 true)
      (toRead t n - toEnd t)).2 = (↑(toRead t n - toEnd t), (data.drop 0).take (toRead t n - toEnd t)) :=
    hs5
  have hle := toRead_le hb n
  have hle' := hb.avail_le; have hle'' := hb.total_le
  rw [readLoop_split h.ready hb hw (by omega)]
  simp only [e1, if_neg (show ¬ (toEnd t : Int) < 0 by omega), ne_eq, not_true_eq_false, ↓reduceIte]
  rw [readTail_eq idealOps (by omega) (by simpa using hle) (by simp)
    (by simp only [e2]; omega)]
  simp only [e2, Int.zero_add, List.drop_zero]
  have hmod : (t.read + toRead t n) % t.size = ((toRead t n - toEnd t : Nat) : Int) % t.size := by
    rw [show t.read + toRead t n = ((toRead t n - toEnd t : Nat) : Int) + t.size by omega,
      Int.add_emod_right]
  have hs' : Single (idealOps.read (idealOps.seek (idealOps.read t.sub (toEnd t)).1 0 true)
      (toRead t n - toEnd t)).1 data ((t.read + toRead t n) % t.size).toNat t.write.toNat := by
    rw [hmod, Int.emod_eq_of_lt (by omega) (by omega), Int.toNat_natCast]
    rw [Nat.zero_add] at hs4
    exact hs4
  have hret : (toRead t n : Int) - (toRead t n - toEnd t : Nat) + (toRead t n - toEnd t : Nat) =
      toRead t n := by omega
  have hc := h.consume hl hk hs'
  rw [hmod] at hc
  rw [hret, hp]
  refine ⟨hc, ?_⟩
  rw [Int.toNat_natCast, List.take_of_length_le]
  simp only [List.length_append, List.length_drop, List.length_take]
  omega

theorem holds_read (h : Holds t r) (n : Nat) (hok : CallOk t (.read n)) :
    Holds (callStep t (.read n)).1 (r.read n) ∧ (callStep t (.read n)).2 = r.peek n := by
  have hok : t.read + toRead t n ≠ t.size := hok
  by_cases ha : t.avail ≤ 0
  · exact h.read_empty ha
  · rcases Int.lt_or_gt_of_ne hok with hw | hw
    · exact h.read_whole (by omega) hw
    · exact h.read_split (by omega) hw

/-! ## Writes -/

/-- Where the next byte goes: behind the data while the file grows, over the
oldest byte once it is full. -/
theorem Holds.write_pos (h : Holds t r) :
    (t.start = 0 ∧ t.total < t.size ∧ t.write = t.total) ∨
      (t.total = t.size ∧ t.write = t.start) := by
  have hb := h.book
  have h1 := hb.avail_nonneg; have h2 := hb.avail_le; have h3 := hb.start_nonneg
  have h4 := hb.start_lt; have h5 := hb.total_le
  have hw := hb.write_eq
  by_cases ht : t.total = t.size
  · rw [ht, Int.add_emod_right, Int.emod_eq_of_lt h3 h4] at hw
    exact .inr ⟨ht, hw⟩
  · have h0 : t.start = 0 := h.filled.resolve_right ht
    rw [h0, Int.zero_add, Int.emod_eq_of_lt (by omega) (by omega)] at hw
    exact .inl ⟨h0, by omega, hw⟩

/-- `k` bytes went to the file, the write descriptor is where the cursor goes
and the file reads as the new history. -/
theorem Holds.written (h : Holds t r) {buf data : List Byte} {s : Subfiles}
    (hpos : 0 < buf.length) (hok : CallOk t (.write buf))
    (hs : Single s data t.read.toNat ((t.write + buf.length) % t.size).toNat)
    (hl : (data.length : Int) = min (t.total + buf.length) t.size)
    (hk : lastN subFileSize (r.kept ++ buf) = rotated data
      (if t.size < t.total + buf.length then (t.write + buf.length) % t.size else t.start).toNat) :
    Holds (adjustPos { t with sub := s } buf.length) (r.write buf) := by
  have hb := h.book
  have h1 := hb.avail_le; have h2 := hb.total_le; have h3 := h.size_eq
  have h4 := h.total_eq; have h5 := h.avail_eq
  obtain ⟨hn, -, hov⟩ := hok
  -- the reader keeps its place in the file
  have hread : (if t.size < t.avail + buf.length then (t.write + buf.length) % t.size else t.read) =
      t.read := by
    split
    · have hfull : t.avail = t.size ∧ (buf.length : Int) = t.size := by omega
      have hr := hb.read_eq
      have hw := hb.write_eq
      rw [hfull.2, Int.add_emod_right, Int.emod_eq_of_lt hb.write_nonneg hb.write_lt, hw, hr,
        show t.total = t.size by omega, hfull.1, Int.add_sub_cancel, Int.add_emod_right]
    · rfl
  have hbk := book_adjustPos (hb.withSub s) buf.length
  have hkeep := adjustPos_keeps t s buf.length
  refine ⟨hkeep.ready h.ready, hbk, hkeep.size.trans h3, h.cap_eq, ?_, ?_, ?_, ?_⟩ <;>
    rw [adjustPos_eq (hb.withSub s) (by omega)]
  · simp only [History.write, length_lastN, List.length_append, h.cap_eq]; omega
  · simp only [History.write, h.cap_eq]; omega
  · simp only
    split
    · right; omega
    · have := h.filled; omega
  · simp only [hread]
    refine ⟨data, hs, ?_, ?_⟩
    · simp only [History.write, length_lastN, List.length_append, h.cap_eq]; omega
    · simp only [History.write, h.cap_eq, hk]

theorem amlTimeshiftFileWrite_loop {σ : Type} {io : SubfileOps σ} {t : TFile σ} (hr : Ready t)
    (hb : Book t) {buf : List Byte} (hn : (buf.length : Int) ≤ t.size) :
    amlTimeshiftFileWrite io t buf = writeLoop io t buf := by
  have h1 := hb.size_pos; have h2 := hr.size_lt
  have := u64_cast (x := t.size) (by omega) (by omega)
  simp only [amlTimeshiftFileWrite, hr.opened, hr.loop, Bool.not_true, Bool.false_eq_true,
    ↓reduceIte, if_neg (show ¬ buf.length > u64 t.size by omega)]

/-- The part of a write before the end of the file; `0` if all of it is. -/
theorem writeSplit_eq {σ : Type} {t : TFile σ} (hr : Ready t) (hb : Book t) {n : Nat}
    (hn : (n : Int) ≤ t.size) :
    (if u64 (t.write + n) > u64 t.size then u64 (t.size - t.write) else 0) =
      if t.size < t.write + n then (t.size - t.write).toNat else 0 := by
  have h0 := hb.write_nonneg; have h1 := hb.write_lt; have h2 := hr.size_lt
  have e1 := u64_cast (x := t.write + n) (by omega) (by omega)
  have e2 := u64_cast (x := t.size) (by omega) (by omega)
  have e3 := u64_cast (x := t.size - t.write) (by omega) (by omega)
  split <;> split <;> omega

theorem writeLoop_whole {σ : Type} {io : SubfileOps σ} {t : TFile σ} (hr : Ready t) (hb : Book t)
    {buf : List Byte} (hw : t.write + buf.length ≤ t.size) :
    writeLoop io t buf = writeTail io t 0 buf := by
  have h0 := hb.write_nonneg
  have hs := writeSplit_eq hr hb (n := buf.length) (by omega)
  rw [if_neg (Int.not_lt.mpr hw)] at hs
  simp only [writeLoop, hs, gt_iff_lt, Nat.lt_irrefl, ↓reduceIte]

/-- A write past the end whose part before the end is complete. -/
theorem writeLoop_split {σ : Type} {io : SubfileOps σ} {t : TFile σ} (hr : Ready t) (hb : Book t)
    {buf : List Byte} (hn : (buf.length : Int) ≤ t.size) (hw : t.size < t.write + buf.length)
    {m : Nat} (hm : m = (t.size - t.write).toNat)
    (hfull : (io.write t.sub (buf.take m)).2 = m) :
    writeLoop io t buf =
      writeTail io { t with sub := io.seek (io.write t.sub (buf.take m)).1 0 false } m (buf.drop m) := by
  have h0 := hb.write_nonneg; have h1 := hb.write_lt
  have hs := writeSplit_eq hr hb hn
  rw [if_pos hw, ← hm] at hs
  simp only [writeLoop, hs, gt_iff_lt, if_pos (show 0 < m by omega), hfull,
    if_neg (show ¬ (m : Int) < 0 by omega), ne_eq, not_true_eq_false, ↓reduceIte]

theorem holds_write_whole (h : Holds t r) {buf : List Byte} (hok : CallOk t (.write buf))
    (hw : t.write + buf.length < t.size) : Holds (writeLoop idealOps t buf).1 (r.write buf) := by
  have hb := h.book
  have h0 := hb.write_nonneg; have h3 := h.size_eq; have h4 := h.total_eq
  obtain ⟨data, hs, hl, hk⟩ := h.file
  have hs1 := (hs.write (b := buf) (by omega) (by omega)).1
  have hs2 : (idealOps.write t.sub buf).2 = buf.length :=
    (hs.write (b := buf) (by omega) (by omega)).2
  rw [writeLoop_whole h.ready hb hw.le]
  simp only [writeTail, hs2, Int.natCast_zero, Int.add_zero]
  by_cases hz : buf.length = 0
  · -- nothing to write
    obtain rfl := List.length_eq_zero_iff.mp hz
    have hs1' : Single (idealOps.write t.sub []).1 data t.read.toNat t.write.toNat := by
      rw [overwrite_nil (by rcases h.write_pos with h' | h' <;> omega)] at hs1
      exact hs1
    have hkept : lastN r.cap (r.kept ++ []) = r.kept := by
      rw [List.append_nil, lastN_of_le r.kept_le]
    have hav := r.avail_le
    have hcap := r.kept_le
    simp only [List.length_nil, Int.natCast_zero, gt_iff_lt, Int.lt_irrefl, ↓reduceIte, adjustPos]
    refine ⟨⟨h.ready.1, h.ready.2, h.ready.3⟩, hb.withSub _, h3, h.cap_eq, ?_, ?_, h.filled,
      data, hs1', ?_, ?_⟩
    · simp only [History.write, hkept]; exact h4
    · simp only [History.write, List.length_nil, Nat.add_zero]
      rw [Nat.min_eq_left (by omega)]; exact h.avail_eq
    · simp only [History.write, hkept]; exact hl
    · simp only [History.write, hkept]; exact hk
  · have hpos : 0 < buf.length := by omega
    simp only [gt_iff_lt, if_pos (show (0 : Int) < buf.length by omega)]
    have hmod : (t.write + buf.length) % t.size = t.write + buf.length :=
      Int.emod_eq_of_lt (by omega) hw
    have hwpos : t.write.toNat + buf.length = ((t.write + buf.length) % t.size).toNat := by
      rw [hmod]; omega
    rw [hwpos] at hs1
    refine h.written hpos hok hs1 ?_ ?_
    · rcases h.write_pos with ⟨a1, a2, a3⟩ | ⟨a1, a2⟩
      · rw [show t.write.toNat = data.length by omega, overwrite_end, List.length_append]
        push_cast; omega
      · rw [overwrite_of_le (by omega)]
        simp only [List.length_append, List.length_take, List.length_drop]
        omega
    · rcases h.write_pos with ⟨a1, a2, a3⟩ | ⟨a1, a2⟩
      · rw [show t.write.toNat = data.length by omega, overwrite_end,
          if_neg (by omega), a1, Int.toNat_zero, rotated_zero, hk, a1, Int.toNat_zero, rotated_zero,
          lastN_of_le (by rw [List.length_append]; omega)]
      · rw [if_pos (by omega), ← hwpos, overwrite_of_le (by omega),
          rotated_write (by omega), hk, ← a2, show data.length = subFileSize by omega]

theorem holds_write_split (h : Holds t r) {buf : List Byte} (hok : CallOk t (.write buf))
    (hw : t.size < t.write + buf.length) : Holds (writeLoop idealOps t buf).1 (r.write buf) := by
  have hb := h.book
  have h0 := hb.write_nonneg; have h1 := hb.write_lt; have h3 := h.size_eq; have h4 := h.total_eq
  have h5 := hok.1; have h6 := hb.total_le
  obtain ⟨data, hs, hl, hk⟩ := h.file
  obtain ⟨m, hm⟩ : ∃ m, m = (t.size - t.write).toNat := ⟨_, rfl⟩
  have hla : (buf.take m).length = m := by rw [List.length_take]; omega
  have hlb : (buf.drop m).length = buf.length - m := List.length_drop
  have hwl : t.write.toNat ≤ data.length := by rcases h.write_pos with h' | h' <;> omega
  -- the file after the first part is full
  have hdata : overwrite data t.write.toNat (buf.take m) = data.take t.write.toNat ++ buf.take m := by
    rw [overwrite_of_le hwl, hla, List.drop_eq_nil_of_le (by omega), List.append_nil]
  have hs1 := hs.write (b := buf.take m) (by omega) (by omega)
  rw [hdata, hla] at hs1
  have hs2 := hs1.1.seek (o := 0) (by decide) false
  simp only [Bool.false_eq_true, ↓reduceIte, Int.natCast_zero] at hs2
  have hs3 := hs2.write (b := buf.drop m) (by decide) (by omega)
  rw [overwrite_of_le (Nat.zero_le _), List.take_zero, List.nil_append, Nat.zero_add] at hs3
  rw [writeLoop_split h.ready hb h5 hw hm hs1.2]
  have hret : (idealOps.write (idealOps.seek (idealOps.write t.sub (buf.take m)).1 0 false)
      (buf.drop m)).2 = (buf.drop m).length := hs3.2
  simp only [writeTail, hret, gt_iff_lt,
    if_pos (show (0 : Int) < (buf.drop m).length by omega),
    show (((buf.drop m).length : Nat) : Int) + m = buf.length by omega]
  have hmod : (t.write + buf.length) % t.size = ((buf.drop m).length : Int) := by
    rw [show t.write + buf.length = ((buf.drop m).length : Int) + t.size by omega,
      Int.add_emod_right, Int.emod_eq_of_lt (by omega) (by omega)]
  have hlen : ((buf.drop m) ++ (data.take t.write.toNat ++ buf.take m).drop (buf.drop m).length).length =
      subFileSize := by
    simp only [List.length_append, List.length_drop, List.length_take]; omega
  refine h.written (by omega) hok (by rw [hmod, Int.toNat_natCast]; exact hs3.1)
    (by rw [hlen]; rcases h.write_pos with h' | h' <;> omega) ?_
  have hbuf : buf = buf.take m ++ buf.drop m := (List.take_append_drop m buf).symm
  rcases h.write_pos with ⟨a1, a2, a3⟩ | ⟨a1, a2⟩
  · have hX : (data ++ buf.take m).length = subFileSize := by
      rw [List.length_append, hla]; omega
    rw [if_pos (by omega), hmod, Int.toNat_natCast, List.take_of_length_le (by omega), hk, a1,
      Int.toNat_zero, rotated_zero, rotated_overwrite (by omega), hX, List.append_assoc, ← hbuf]
  · have hwrap : rotated ((buf.drop m) ++ (data.take t.write.toNat ++ buf.take m).drop
        (buf.drop m).length) (buf.drop m).length = _ :=
      rotated_write_wrap (by omega) (by omega)
    rw [if_pos (by omega), hmod, Int.toNat_natCast, hwrap, ← hbuf, hk, ← a2,
      show data.length = subFileSize by omega]

theorem holds_write (h : Holds t r) (buf : List Byte) (hok : CallOk t (.write buf)) :
    Holds (callStep t (.write buf)).1 (r.write buf) := by
  simp only [callStep, amlTimeshiftFileWrite_loop h.ready h.book hok.1]
  rcases Int.lt_or_gt_of_ne hok.2.1 with hw | hw
  · exact holds_write_whole h hok hw
  · exact holds_write_split h hok hw

/-! ## Seeks -/

theorem holds_seek (h : Holds t r) (o : Int) (hok : CallOk t (.seek o)) :
    Holds (callStep t (.seek o)).1 (ringStep r (.seek o)).1 := by
  have hb := h.book
  have h1 := hb.start_nonneg; have h3 := h.size_eq; have h4 := h.total_eq
  have hp := hb.size_pos
  have hok' : t.total = 0 → o ≤ 0 := hok
  have hbk : Book (amlTimeshiftFileSeek idealOps t o).1 := (book_seek_iff hb o).2 hok'
  have hkeep : Keeps t (amlTimeshiftFileSeek idealOps t o).1 := seek_keeps t hp o
  obtain ⟨data, hs, hl, hk⟩ := h.file
  have hc : clampSeek t o =
      ((if o > r.kept.length then r.kept.length - 1 else o.toNat : Nat) : Int) := by
    unfold clampSeek; split <;> split <;> (try split) <;> omega
  refine ⟨hkeep.ready h.ready, hbk, hkeep.size.trans h3, h.cap_eq, ?_, ?_, ?_, ?_⟩ <;>
    simp only [callStep, amlTimeshiftFileSeek_fst hp, ringStep, History.seek]
  · exact h4
  · have hle := hbk.avail_le; have hge := hbk.avail_nonneg
    rw [amlTimeshiftFileSeek_fst hp] at hle hge
    simp only [hc] at hle hge ⊢
    omega
  · exact h.filled
  · have hge : 0 ≤ (t.start + clampSeek t o).tmod t.size := Int.tmod_nonneg _ (by omega)
    have hlt := Int.tmod_lt_of_pos (t.start + clampSeek t o) hp
    have hs1 := hs.seek (o := ((t.start + clampSeek t o).tmod t.size).toNat) (by omega) true
    rw [Int.toNat_of_nonneg hge] at hs1
    exact ⟨data, hs1, hl, hk⟩

/-! ## Runs -/

theorem holds_step (h : Holds t r) (c : Call) (hok : CallOk t c) :
    Holds (callStep t c).1 (ringStep r c).1 ∧ (callStep t c).2 = (ringStep r c).2 := by
  cases c with
  | write buf => exact ⟨holds_write h buf hok, rfl⟩
  | read n => exact holds_read h n hok
  | seek o => exact ⟨holds_seek h o hok, rfl⟩

end

/-- The freshly opened ring file. -/
abbrev openRing : TFile Subfiles := amlTimeshiftFileOpen amlTimeshiftSubfileOpen

/-- **The ring file refines the ring.** From the freshly opened file, in every
run whose calls leave the descriptors at the cursors, each read returns exactly
what the ring returns. -/
theorem reads_refine_ring (cs : List Call) (h : Each CallOk callStep openRing cs) :
    (run callStep openRing cs).2 = (run ringStep (History.empty subFileSize) cs).2 := by
  have hstep : ∀ t r c, Holds t r → CallOk t c →
      Holds (callStep t c).1 (ringStep r c).1 ∧ (callStep t c).2 = (ringStep r c).2 :=
    fun _ _ c hs hok => holds_step hs c hok
  exact (run_sim hstep holds_open h).2

theorem reads_refine_ring_three :
    (run callStep openRing [.write [1, 2, 3], .read 2, .seek 9, .read 4]).2 =
      [[], [1, 2], [], [3]] := by
  have h : Each CallOk callStep openRing [.write [1, 2, 3], .read 2, .seek 9, .read 4] :=
    ⟨by decide +kernel, by decide +kernel, by decide +kernel, by decide +kernel, trivial⟩
  rw [reads_refine_ring _ h]
  decide +kernel

/-! ## An excluded call -/

theorem subFileSize_pos : 0 < subFileSize := by decide
theorem u64_subFileSize : u64 (subFileSize : Int) = subFileSize := u64_natCast (by decide)

section
-- the proofs must not count to a gigabyte
attribute [local irreducible] subFileSize

/-- The file after one write of more than `size` bytes into the empty ring. -/
theorem write_oversized {d : List Byte} (hd : subFileSize < d.length) :
    ∃ t, (callStep openRing (.write d)).1 = t ∧ Ready t ∧ Book t ∧ t.read = 0 ∧
      t.avail = subFileSize ∧ t.size = subFileSize ∧
      ∃ w, Single t.sub (d.take subFileSize) 0 w := by
  have hr : Ready openRing := holds_open.ready
  have hb : Book openRing := holds_open.book
  have hpos := subFileSize_pos
  have hlen : (d.take subFileSize).length = subFileSize := by rw [List.length_take]; omega
  have hu : u64 openRing.size = subFileSize := u64_subFileSize
  have hw : (callStep openRing (.write d)).1 = (writeLoop idealOps openRing (d.take subFileSize)).1 := by
    simp only [callStep, amlTimeshiftFileWrite, hr.opened, hr.loop, Bool.not_true,
      Bool.false_eq_true, ↓reduceIte, hu, gt_iff_lt, if_pos hd, Nat.sub_self, List.drop_zero]
  have hs := single_open.write (b := d.take subFileSize) hpos (by omega)
  have hover : overwrite [] 0 (d.take subFileSize) = d.take subFileSize := by simp [overwrite]
  rw [hover] at hs
  have hret : (idealOps.write openRing.sub (d.take subFileSize)).2 = (d.take subFileSize).length := hs.2
  have h0 : openRing.write = 0 := rfl
  have h1 : openRing.size = subFileSize := rfl
  refine ⟨_, rfl, (write_keeps _ rfl d).ready hr, book_write hr hb d, ?_⟩
  rw [hw, writeLoop_whole hr hb (by rw [hlen, h0, h1]; omega)]
  simp only [writeTail, hret, hlen, Int.natCast_zero, Int.add_zero, gt_iff_lt,
    if_pos (show (0 : Int) < subFileSize by omega)]
  rw [adjustPos_eq (hb.withSub _) (by omega)]
  refine ⟨?_, ?_, rfl, _, hs.1⟩
  · simp [openRing, amlTimeshiftFileOpen]
  · simp [openRing, amlTimeshiftFileOpen]

theorem oversized_apart {d : List Byte} (hd : d.length + 1 = subFileSize) :
    (run callStep openRing [.write (1 :: 0 :: d), .read 1]).2 ≠
      (run ringStep (History.empty subFileSize) [.write (1 :: 0 :: d), .read 1]).2 := by
  obtain ⟨t, ht, hr, hb, h0, ha, hsz, w, hs⟩ :=
    write_oversized (d := 1 :: 0 :: d) (by simp only [List.length_cons]; omega)
  have hcode : (callStep t (.read 1)).2 = [1] := by
    have hone : toRead t 1 = 1 := by unfold toRead; omega
    have h1 : (idealOps.read t.sub 1).2 = ((1 : Int), [1]) := by
      have h1 := (hs.read 1).2
      rw [List.drop_zero, ← hd, List.take_succ_cons, List.take_succ_cons, List.take_zero] at h1
      exact h1
    simp only [callStep]
    rw [amlTimeshiftFileRead_loop hr hb (by omega), hone, readLoop_whole hr hb (by omega),
      readTail_eq idealOps (Nat.le_refl 1) (by omega) (by omega) (by rw [h1]; decide)]
    simp [h1]
  have hring : (ringStep ((History.empty subFileSize).write (1 :: 0 :: d)) (.read 1)).2 =
      [(0 : Byte)] := by
    have hk : lastN subFileSize ([] ++ (1 : Byte) :: 0 :: d) = 0 :: d := by
      rw [List.nil_append, lastN, List.length_cons, List.length_cons, hd, Nat.add_sub_cancel_left,
        List.drop_succ_cons, List.drop_zero]
    have hmin : min (0 + (1 :: 0 :: d).length) subFileSize = (0 :: d).length := by
      simp only [List.length_cons]; omega
    simp only [ringStep, History.peek, History.write, History.empty, hk, hmin, Nat.sub_self,
      List.drop_zero]
    rw [List.take_succ_cons, List.take_zero]
  have hring' : (ringStep (ringStep (History.empty subFileSize) (.write (1 :: 0 :: d))).1 (.read 1)).2 =
      [(0 : Byte)] := hring
  rw [run_cons, run_cons, run_nil, run_cons, run_cons, run_nil, ht, hcode, hring']
  intro h
  simp at h

end

/-- An oversized write keeps its first bytes: the next read returns the byte the
ring has dropped. -/
theorem oversized_write_keeps_first :
    (run callStep openRing [.write (1 :: 0 :: List.replicate (subFileSize - 1) 0), .read 1]).2 ≠
      (run ringStep (History.empty subFileSize)
        [.write (1 :: 0 :: List.replicate (subFileSize - 1) 0), .read 1]).2 :=
  oversized_apart (by rw [List.length_replicate]; exact Nat.sub_add_cancel subFileSize_pos)

end VendorAmlogic.Timeshift
