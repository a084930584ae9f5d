import Mathlib.Tactic
import VendorAmlogic.Lib.Run
import VendorAmlogic.Timeshift.File

/-!
# Bookkeeping of the timeshift ring

`Book t`: the five cursors of the ring agree. Writes keep it whatever the
sub-file layer answers. A read loses it when it wraps and the transfer behind
the end fails after the one before it succeeded: `read` is already back at the
start of the file while `avail` still counts the bytes before the end. A seek
past the end of an empty ring leaves `read = -1` and `avail = 1`, and fixing
the ring size while data is behind the new end moves the modulus under the
cursors. `StepOk` excludes exactly these steps (`book_step_iff`).
-/

namespace VendorAmlogic.Timeshift

open VendorAmlogic.Lib

variable {σ : Type}

structure Book (t : TFile σ) : Prop where
  avail_nonneg : 0 ≤ t.avail
  avail_le : t.avail ≤ t.total
  total_le : t.total ≤ t.size
  read_nonneg : 0 ≤ t.read
  read_lt : t.read < t.size
  start_nonneg : 0 ≤ t.start
  start_lt : t.start < t.size
  write_eq : t.write = (t.start + t.total) % t.size
  read_eq : t.read = (t.start + t.total - t.avail) % t.size

/-- An opened loop-mode file whose size fits `loff_t`. -/
structure Ready (t : TFile σ) : Prop where
  opened : t.opened = true
  loop : t.loop = true
  size_lt : t.size < 2 ^ 63

namespace Book

variable {t : TFile σ}

theorem size_pos (h : Book t) : 0 < t.size := by have := h.start_nonneg; have := h.start_lt; omega

theorem write_nonneg (h : Book t) : 0 ≤ t.write := by
  rw [h.write_eq]; exact Int.emod_nonneg _ (by have := h.size_pos; omega)

theorem write_lt (h : Book t) : t.write < t.size := by
  rw [h.write_eq]; exact Int.emod_lt_of_pos _ h.size_pos

/-- The sub-file part plays no role. -/
theorem withSub (h : Book t) (s : σ) : Book { t with sub := s } :=
  ⟨h.1, h.2, h.3, h.4, h.5, h.6, h.7, h.8, h.9⟩

/-- `k` of the available bytes are read. -/
theorem consume (h : Book t) {k : Int} (h0 : 0 ≤ k) (h1 : k ≤ t.avail) :
    Book { t with read := (t.read + k) % t.size, avail := t.avail - k } := by
  have hp := h.size_pos
  have h2 := h.avail_le
  refine ⟨by simp only; omega, by simp only; omega, h.3, ?_, ?_, h.6, h.7, h.8, ?_⟩
  · exact Int.emod_nonneg _ (by omega)
  · exact Int.emod_lt_of_pos _ hp
  · simp only
    rw [h.read_eq, Int.emod_add_emod]
    congr 1; omega

end Book

/-! ## Reads -/

theorem readDone_eq {t : TFile σ} {ret : Int} {buf : List Byte} (h : ret ≤ t.avail) :
    readDone t ret buf = ({ t with avail := t.avail - max ret 0 }, ret, buf) := by
  unfold readDone
  split
  · rw [if_neg (by omega), show max ret 0 = ret by omega]
  · rw [show max ret 0 = 0 by omega, Int.sub_zero]

variable (io : SubfileOps σ)

/-- The last transfer of a read whose first `size - todo` bytes are in. -/
theorem readTail_eq {t : TFile σ} {size todo : Nat} {buf : List Byte} (hle : todo ≤ size)
    (hsz : size ≤ t.avail) (h0 : 0 ≤ t.read)
    (hpos : 0 < (io.read t.sub todo).2.1) :
    readTail io t size todo buf =
      ({ t with
          sub := (io.read t.sub todo).1
          read := (t.read + (io.read t.sub todo).2.1) % t.size
          avail := t.avail - (size - todo + (io.read t.sub todo).2.1) },
        size - todo + (io.read t.sub todo).2.1, buf ++ (io.read t.sub todo).2.2) := by
  have hr := io.read_le t.sub todo
  simp only [readTail, gt_iff_lt, if_pos hpos]
  rw [readDone_eq (by simp only; omega), Int.tmod_eq_emod_of_nonneg (by omega)]
  simp only [TFile.mk.injEq, true_and, and_true, Prod.mk.injEq]
  omega

theorem readTail_fail {t : TFile σ} {size todo : Nat} {buf : List Byte} (h0 : 0 ≤ t.avail)
    (hneg : (io.read t.sub todo).2.1 ≤ 0) :
    readTail io t size todo buf =
      ({ t with sub := (io.read t.sub todo).1 }, (io.read t.sub todo).2.1, buf) := by
  simp only [readTail, gt_iff_lt, if_neg (Int.not_lt.mpr hneg)]
  rw [readDone_eq (by simp only; omega), show max (io.read t.sub todo).2.1 0 = 0 by omega,
    Int.sub_zero]

/-- The bytes a read of `n` asks the sub-files for. -/
def toRead (t : TFile σ) (n : Nat) : Nat := min n t.avail.toNat

/-- The bytes from the read cursor to the end of the file. -/
def toEnd (t : TFile σ) : Nat := (t.size - t.read).toNat

/-- The read of `n` bytes wraps, its part before the end is complete and the
part behind it brings nothing. -/
def ReadStalls (t : TFile σ) (n : Nat) : Prop :=
  t.size < t.read + toRead t n ∧ (io.read t.sub (toEnd t)).2.1 = toEnd t ∧
    (io.read (io.seek (io.read t.sub (toEnd t)).1 0 true) (toRead t n - toEnd t)).2.1 ≤ 0

section
variable {t : TFile σ} {io}

theorem amlTimeshiftFileRead_empty (hr : Ready t) (h : t.avail ≤ 0) (n : Nat) :
    amlTimeshiftFileRead io t n = ({ t with avail := 0 }, -1, []) := by
  simp [amlTimeshiftFileRead, hr.opened, hr.loop, h]

theorem amlTimeshiftFileRead_loop (hr : Ready t) (hb : Book t) (h : 0 < t.avail) (n : Nat) :
    amlTimeshiftFileRead io t n = readLoop io t (toRead t n) := by
  have h1 := hb.avail_le; have h2 := hb.total_le; have h3 := hr.size_lt
  have hu : u64 t.avail = t.avail.toNat := by
    have := u64_cast hb.avail_nonneg (by omega); omega
  have hmin : (if n < u64 t.avail then n else u64 t.avail) = toRead t n := by
    unfold toRead; rw [hu]; split <;> omega
  simp only [amlTimeshiftFileRead, hr.opened, hr.loop, Bool.not_true, Bool.false_eq_true,
    ↓reduceIte, if_neg (Int.not_le.mpr h), hmin]

/-- A read that ends before or at the end of the file is one transfer. -/
theorem readLoop_whole (hr : Ready t) (hb : Book t) {m : Nat} (hm : t.read + m ≤ t.size) :
    readLoop io t m = readTail io t m m [] := by
  have h0 := hb.read_nonneg; have h3 := hr.size_lt
  have e1 : u64 (t.read + m) = (t.read + m).toNat := by
    have := u64_cast (x := t.read + m) (by omega) (by omega); omega
  have e2 : u64 t.size = t.size.toNat := by
    have := u64_cast (x := t.size) (by omega) (by omega); omega
  have hs : ¬ u64 (t.read + m) > u64 t.size := by rw [e1, e2]; omega
  simp only [readLoop, if_neg hs, gt_iff_lt, Nat.lt_irrefl, ↓reduceIte]

/-- A read that goes past the end asks for the bytes before the end first. -/
theorem readLoop_split (hr : Ready t) (hb : Book t) {m : Nat} (hm : t.size < t.read + m)
    (hm' : m ≤ t.size) :
    readLoop io t m =
      let r := io.read t.sub (toEnd t)
      if r.2.1 < 0 then readDone { t with sub := r.1 } r.2.1 []
      else if r.2.1 ≠ toEnd t then
        readDone { t with sub := r.1, read := t.read + r.2.1 } r.2.1 r.2.2
      else readTail io { t with sub := io.seek r.1 0 true, read := 0 } m (m - toEnd t) r.2.2 := by
  have h0 := hb.read_nonneg; have h1 := hb.read_lt; have h3 := hr.size_lt
  have e1 : u64 (t.read + m) = (t.read + m).toNat := by
    have := u64_cast (x := t.read + m) (by omega) (by omega); omega
  have e2 : u64 t.size = t.size.toNat := by
    have := u64_cast (x := t.size) (by omega) (by omega); omega
  have e3 : u64 (t.size - t.read) = toEnd t := by
    have := u64_cast (x := t.size - t.read) (by omega) (by omega)
    unfold toEnd; omega
  have hs : u64 (t.read + m) > u64 t.size := by rw [e1, e2]; omega
  have he : 0 < toEnd t := by unfold toEnd; omega
  simp only [readLoop, if_pos hs, e3, gt_iff_lt, if_pos he]

theorem toRead_le (hb : Book t) (n : Nat) : (toRead t n : Int) ≤ t.avail := by
  have := hb.avail_nonneg
  unfold toRead; omega

theorem toEnd_cast (hb : Book t) : (toEnd t : Int) = t.size - t.read := by
  have := hb.read_lt
  unfold toEnd; omega

theorem book_readTail (hb : Book t) {m : Nat} (hm : m ≤ t.avail) :
    Book (readTail io t m m []).1 := by
  by_cases hpos : 0 < (io.read t.sub m).2.1
  · have hle := io.read_le t.sub m
    rw [readTail_eq io (Nat.le_refl m) hm hb.read_nonneg hpos]
    simp only [Int.sub_self, Int.zero_add]
    exact (hb.consume (k := (io.read t.sub m).2.1) (by omega) (by omega)).withSub _
  · rw [readTail_fail io hb.avail_nonneg (by omega)]
    exact hb.withSub _

/-- The read that wraps: the first part comes in short, or fails, or is
complete and then the second part decides. -/
theorem book_readLoop_split (hr : Ready t) (hb : Book t) {m : Nat} (hm : m ≤ t.avail)
    (hw : t.size < t.read + m) :
    Book (readLoop io t m).1 ↔
      ((io.read t.sub (toEnd t)).2.1 = toEnd t →
        0 < (io.read (io.seek (io.read t.sub (toEnd t)).1 0 true) (m - toEnd t)).2.1) := by
  have h1 := hb.avail_le; have h2 := hb.total_le; have h3 := hb.read_lt
  have h4 := hb.read_nonneg; have he := toEnd_cast hb
  have hle := io.read_le t.sub (toEnd t)
  rw [readLoop_split hr hb hw (by omega)]
  simp only
  split
  · rename_i hneg
    rw [readDone_eq (by simp only; omega), show max (io.read t.sub (toEnd t)).2.1 0 = 0 by omega,
      Int.sub_zero]
    exact ⟨fun _ h => by omega, fun _ => hb.withSub _⟩
  · rename_i hneg
    split
    · rename_i hshort
      rw [readDone_eq (by simp only; omega),
        show max (io.read t.sub (toEnd t)).2.1 0 = (io.read t.sub (toEnd t)).2.1 by omega]
      have hc := hb.consume (k := (io.read t.sub (toEnd t)).2.1) (by omega) (by omega)
      rw [Int.emod_eq_of_lt (by omega) (by omega)] at hc
      exact ⟨fun _ h => absurd h hshort, fun _ => hc.withSub _⟩
    · rename_i hfull
      have hfull : (io.read t.sub (toEnd t)).2.1 = toEnd t := by omega
      generalize hs : io.seek (io.read t.sub (toEnd t)).1 0 true = s
      have hle2 := io.read_le s (m - toEnd t)
      by_cases hpos : 0 < (io.read s (m - toEnd t)).2.1
      · refine ⟨fun _ _ => hpos, fun _ => ?_⟩
        rw [readTail_eq io (by omega) (by simpa using hm) (by simp) (by simpa using hpos)]
        have hc := hb.consume (k := toEnd t + (io.read s (m - toEnd t)).2.1) (by omega) (by omega)
        have e : (t.read + (toEnd t + (io.read s (m - toEnd t)).2.1)) % t.size =
            (0 + (io.read s (m - toEnd t)).2.1) % t.size := by
          rw [show t.read + (toEnd t + (io.read s (m - toEnd t)).2.1) =
            0 + (io.read s (m - toEnd t)).2.1 + t.size by omega, Int.add_emod_right]
        rw [e] at hc
        have e2 : (m : Int) - (m - toEnd t : Nat) = toEnd t := by omega
        simp only [e2]
        exact hc.withSub _
      · refine ⟨fun hbk => ?_, fun h => absurd (h hfull) hpos⟩
        rw [readTail_fail io (by simpa using hb.avail_nonneg) (by simpa using Int.not_lt.mp hpos)]
          at hbk
        have e := hbk.read_eq
        simp only at e
        rw [← hb.read_eq] at e
        omega

theorem book_read_iff (hr : Ready t) (hb : Book t) (n : Nat) :
    Book (amlTimeshiftFileRead io t n).1 ↔ ¬ ReadStalls io t n := by
  have hm := toRead_le hb n
  have h1 := hb.read_lt
  by_cases ha : t.avail ≤ 0
  · have h0 : t.avail = 0 := by have := hb.avail_nonneg; omega
    rw [amlTimeshiftFileRead_empty hr ha]
    refine iff_of_true (by simpa [h0] using hb.withSub t.sub) ?_
    rintro ⟨hw, -⟩
    omega
  · rw [amlTimeshiftFileRead_loop hr hb (by omega)]
    by_cases hw : t.size < t.read + toRead t n
    · rw [book_readLoop_split hr hb hm hw, ReadStalls]
      constructor
      · rintro h ⟨-, hf, hs⟩
        have := h hf
        omega
      · intro h hf
        by_contra hs
        exact h ⟨hw, hf, by omega⟩
    · rw [readLoop_whole hr hb (by omega)]
      exact iff_of_true (book_readTail hb hm) fun h => hw h.1

/-! ## Writes -/

/-- `adjust_pos` in terms of what is kept: the oldest byte moves with the write
cursor once the ring is full, and so does the reader once it is overrun. -/
theorem adjustPos_eq (hb : Book t) {k : Int} (h0 : 0 < k) :
    adjustPos t k =
      { t with
        write := (t.write + k) % t.size
        read := if t.size < t.avail + k then (t.write + k) % t.size else t.read
        start := if t.size < t.total + k then (t.write + k) % t.size else t.start
        avail := min (t.avail + k) t.size
        total := min (t.total + k) t.size } := by
  have h1 := hb.avail_le; have h2 := hb.total_le; have h3 := hb.write_nonneg
  simp only [adjustPos, gt_iff_lt, if_pos h0]
  rw [Int.tmod_eq_emod_of_nonneg (by omega)]
  simp only [TFile.mk.injEq, true_and, and_true]
  refine ⟨?_, ?_, ?_, ?_⟩ <;> split <;> (try split) <;> omega

theorem book_adjustPos (hb : Book t) (k : Int) : Book (adjustPos t k) := by
  by_cases h0 : 0 < k
  · have h1 := hb.avail_le; have h2 := hb.total_le; have h3 := hb.avail_nonneg
    have hp := hb.size_pos
    have hw : (t.write + k) % t.size = (t.start + t.total + k) % t.size := by
      rw [hb.write_eq, Int.emod_add_emod]
    have w0 : 0 ≤ (t.start + t.total + k) % t.size := Int.emod_nonneg _ (by omega)
    have w1 : (t.start + t.total + k) % t.size < t.size := Int.emod_lt_of_pos _ hp
    rw [adjustPos_eq hb h0, hw]
    refine ⟨by simp only; omega, by simp only; omega, by simp only; omega, ?_, ?_, ?_, ?_, ?_, ?_⟩
    · simp only; split
      · exact w0
      · exact hb.read_nonneg
    · simp only; split
      · exact w1
      · exact hb.read_lt
    · simp only; split
      · exact w0
      · exact hb.start_nonneg
    · simp only; split
      · exact w1
      · exact hb.start_lt
    · simp only; split
      · rw [show min (t.total + k) t.size = t.size by omega, Int.add_emod_right,
          Int.emod_eq_of_lt w0 w1]
      · rw [show min (t.total + k) t.size = t.total + k by omega, Int.add_assoc]
    · simp only
      by_cases ha : t.size < t.avail + k
      · rw [if_pos ha, if_pos (by omega), show min (t.total + k) t.size = t.size by omega,
          show min (t.avail + k) t.size = t.size by omega, Int.add_sub_cancel,
          Int.emod_eq_of_lt w0 w1]
      · rw [if_neg ha, hb.read_eq, show min (t.avail + k) t.size = t.avail + k by omega]
        by_cases ht : t.size < t.total + k
        · rw [if_pos ht, show min (t.total + k) t.size = t.size by omega,
            Int.add_sub_assoc ((t.start + t.total + k) % t.size), Int.emod_add_emod, show t.start + t.total + k + (t.size - (t.avail + k)) =
              t.start + t.total - t.avail + t.size by omega, Int.add_emod_right]
        · rw [if_neg ht, show min (t.total + k) t.size = t.total + k by omega]
          congr 1; omega
  · rw [adjustPos, if_neg h0]
    exact hb

theorem book_writeLoop (hb : Book t) (buf : List Byte) : Book (writeLoop io t buf).1 := by
  simp only [writeLoop, writeTail]
  generalize (if u64 (t.write + buf.length) > u64 t.size then u64 (t.size - t.write) else 0) = n
  split
  · split
    · exact hb.withSub _
    · split
      · exact book_adjustPos (hb.withSub _) _
      · exact book_adjustPos (hb.withSub _) _
  · exact book_adjustPos (hb.withSub _) _

theorem book_write (hr : Ready t) (hb : Book t) (buf : List Byte) :
    Book (amlTimeshiftFileWrite io t buf).1 := by
  simp only [amlTimeshiftFileWrite, hr.opened, hr.loop, Bool.not_true, Bool.false_eq_true,
    ↓reduceIte]
  split
  · exact book_writeLoop hb _
  · exact book_writeLoop hb _

/-! ## Seeks -/

/-- The offset a seek really goes to. -/
def clampSeek (t : TFile σ) (o : Int) : Int :=
  if o > t.total then t.total - 1 else if o < 0 then 0 else o

theorem amlTimeshiftFileSeek_fst (hp : 0 < t.size) (o : Int) :
    (amlTimeshiftFileSeek io t o).1 =
      { t with
        read := (t.start + clampSeek t o).tmod t.size
        avail := t.total - clampSeek t o
        sub := io.seek t.sub ((t.start + clampSeek t o).tmod t.size) true } := by
  have hs : ¬ t.size ≤ 0 := by omega
  by_cases h1 : o > t.total
  · simp only [amlTimeshiftFileSeek, clampSeek, if_neg hs, if_pos h1]
  · by_cases h2 : o < 0
    · simp only [amlTimeshiftFileSeek, clampSeek, if_neg hs, if_neg h1, if_pos h2]
    · simp only [amlTimeshiftFileSeek, clampSeek, if_neg hs, if_neg h1, if_neg h2]

/-- A seek keeps the cursors together unless it aims past the end of an empty
ring. -/
theorem book_seek_iff (hb : Book t) (o : Int) :
    Book (amlTimeshiftFileSeek io t o).1 ↔ (t.total = 0 → o ≤ 0) := by
  have h1 := hb.avail_nonneg; have h2 := hb.avail_le; have h3 := hb.start_nonneg
  have hp := hb.size_pos
  rw [amlTimeshiftFileSeek_fst hp]
  constructor
  · intro h h0
    have := h.avail_le
    simp only [clampSeek, h0] at this
    by_contra ho
    rw [if_pos (by omega)] at this
    omega
  · intro h
    have hc : 0 ≤ clampSeek t o ∧ clampSeek t o ≤ t.total := by
      unfold clampSeek
      split <;> (try split) <;> omega
    rw [Int.tmod_eq_emod_of_nonneg (by omega)]
    refine ⟨by simp only; omega, by simp only; omega, hb.3, ?_, ?_, hb.6, hb.7, hb.8, ?_⟩
    · exact Int.emod_nonneg _ (by omega)
    · exact Int.emod_lt_of_pos _ hp
    · simp only
      congr 1; omega

/-! ## The ring size -/

/-- The measurement ends with this call. -/
def Measures (s : TShift σ) (now size : Int) : Prop :=
  0 < size ∧ s.rate = 0 ∧ s.rtime ≠ 0 ∧ 3000 ≤ now - s.rtime ∧
    i32 (((s.rtotal + size) * 1000).tdiv (now - s.rtime)) ≠ 0

/-- The ring size it fixes. -/
def measuredSize (s : TShift σ) (now size : Int) : Int :=
  i32 (((s.rtotal + size) * 1000).tdiv (now - s.rtime)) * s.duration

theorem fillRate_file {s : TShift σ} (hl : s.file.loop = true) {now size : Int}
    (h : Measures s now size) :
    (amlTimeshiftFillRate s now size).file = { s.file with size := measuredSize s now size } := by
  obtain ⟨h1, h2, h3, h4, h5⟩ := h
  simp only [amlTimeshiftFillRate, gt_iff_lt, h1, h2, h3, and_self, ↓reduceIte, ge_iff_le, h4, h5,
    hl, ne_eq, not_false_eq_true, measuredSize]

theorem fillRate_file_of_not {s : TShift σ} {now size : Int} (h : ¬ Measures s now size) :
    (amlTimeshiftFillRate s now size).file = s.file := by
  unfold amlTimeshiftFillRate
  split
  · split
    · rfl
    · split
      · simp only
        split
        · rename_i h1 h2 h3 h4
          exact absurd ⟨h1.1, h1.2, h2, h3, h4.1⟩ h
        · rfl
      · rfl
  · rfl

/-- A new modulus keeps the cursors together exactly when the data lies before
both ends, or the size did not change. -/
theorem book_resize_iff (hb : Book t) (n : Int) :
    Book { t with size := n } ↔
      (n = t.size ∨ (t.start + t.total < t.size ∧ t.start + t.total < n)) := by
  have h1 := hb.avail_nonneg; have h2 := hb.avail_le; have h3 := hb.total_le
  have h4 := hb.start_nonneg; have h5 := hb.start_lt; have hp := hb.size_pos
  have hw := hb.write_eq; have hd := hb.read_eq
  -- both sums are below twice the modulus: the remainder is one subtraction
  have wrap : ∀ {x m : Int}, 0 ≤ x → x < 2 * m → x % m = if x < m then x else x - m := by
    intro x m hx hm
    split
    · exact Int.emod_eq_of_lt hx ‹_›
    · rw [← Int.emod_eq_of_lt (a := x - m) (b := m) (by omega) (by omega), Int.sub_emod_right]
  rw [wrap (by omega) (by omega)] at hw
  constructor
  · intro h
    have g3 := h.total_le; have g5 := h.start_lt; have gw := h.write_eq
    simp only at g3 g5 gw
    rw [wrap (by omega) (by omega)] at gw
    split at hw <;> split at gw <;> omega
  · rintro (rfl | ⟨ha, hn⟩)
    · exact hb
    · rw [Int.emod_eq_of_lt (by omega) (by omega)] at hd
      rw [if_pos ha] at hw
      refine ⟨h1, h2, ?_, hb.4, ?_, h4, ?_, ?_, ?_⟩
      · simp only; omega
      · simp only; omega
      · simp only; omega
      · simp only; rw [Int.emod_eq_of_lt (by omega) (by omega)]; exact hw
      · simp only; rw [Int.emod_eq_of_lt (by omega) (by omega)]; exact hd

end

/-! ## What no call changes -/

/-- Mode and size are left alone. -/
structure Keeps (t t' : TFile σ) : Prop where
  opened : t'.opened = t.opened
  loop : t'.loop = t.loop
  size : t'.size = t.size

theorem Keeps.ready {t t' : TFile σ} (h : Keeps t t') (hr : Ready t) : Ready t' :=
  ⟨h.opened ▸ hr.opened, h.loop ▸ hr.loop, h.size ▸ hr.size_lt⟩

section
variable {io} (t : TFile σ)

theorem readDone_keeps (ret : Int) (buf : List Byte) : Keeps t (readDone t ret buf).1 := by
  unfold readDone
  split <;> exact ⟨rfl, rfl, rfl⟩

/-- The transfers start from a file that differs in `sub` and `read` only. -/
theorem Keeps.of_read {s : σ} {r : Int} {t' : TFile σ}
    (h : Keeps { t with sub := s, read := r } t') : Keeps t t' := ⟨h.1, h.2, h.3⟩

theorem readTail_keeps (size todo : Nat) (buf : List Byte) :
    Keeps t (readTail io t size todo buf).1 := by
  unfold readTail
  simp only
  split <;> exact (readDone_keeps _ _ _).of_read

theorem readLoop_keeps (n : Nat) : Keeps t (readLoop io t n).1 := by
  simp only [readLoop]
  generalize (if u64 (t.read + n) > u64 t.size then u64 (t.size - t.read) else 0) = m
  split
  · split
    · exact (readDone_keeps _ _ _).of_read
    · split
      · exact (readDone_keeps _ _ _).of_read
      · exact (readTail_keeps _ _ _ _).of_read
  · exact readTail_keeps _ _ _ _

theorem read_keeps (n : Nat) : Keeps t (amlTimeshiftFileRead io t n).1 := by
  unfold amlTimeshiftFileRead
  split
  · exact ⟨rfl, rfl, rfl⟩
  · split
    · exact (readDone_keeps _ _ _).of_read
    · split
      · exact ⟨rfl, rfl, rfl⟩
      · exact readLoop_keeps _ _

theorem adjustPos_keeps (s : σ) (k : Int) : Keeps t (adjustPos { t with sub := s } k) := by
  unfold adjustPos
  split <;> exact ⟨rfl, rfl, rfl⟩

theorem writeLoop_keeps (buf : List Byte) : Keeps t (writeLoop io t buf).1 := by
  simp only [writeLoop, writeTail]
  generalize (if u64 (t.write + buf.length) > u64 t.size then u64 (t.size - t.write) else 0) = n
  split
  · split
    · exact ⟨rfl, rfl, rfl⟩
    · split
      · exact adjustPos_keeps _ _ _
      · exact adjustPos_keeps _ _ _
  · exact adjustPos_keeps _ _ _

theorem write_keeps (hl : t.loop = true) (buf : List Byte) :
    Keeps t (amlTimeshiftFileWrite io t buf).1 := by
  simp only [amlTimeshiftFileWrite, hl, Bool.not_true, Bool.false_eq_true, ↓reduceIte]
  split
  · exact ⟨rfl, rfl, rfl⟩
  · split
    · exact writeLoop_keeps _ _
    · exact writeLoop_keeps _ _

theorem seek_keeps (hp : 0 < t.size) (o : Int) : Keeps t (amlTimeshiftFileSeek io t o).1 := by
  rw [amlTimeshiftFileSeek_fst hp]
  exact ⟨rfl, rfl, rfl⟩

end

/-! ## Runs -/

inductive Op where
  | write (buf : List Byte)
  | read (n : Nat)
  | seek (offset : Int)
  | fill (now size : Int)

/-- One call; the output is its result. -/
def step (s : TShift σ) : Op → TShift σ × Int
  | .write buf =>
    let r := amlTimeshiftFileWrite io s.file buf
    ({ s with file := r.1 }, r.2)
  | .read n =>
    let r := amlTimeshiftFileRead io s.file n
    ({ s with file := r.1 }, r.2.1)
  | .seek o =>
    let r := amlTimeshiftFileSeek io s.file o
    ({ s with file := r.1 }, r.2)
  | .fill now size => (amlTimeshiftFillRate s now size, 0)

/-- `aml_timeshift_fill_data` is the rate step followed by the write. -/
theorem fillData_eq_run (s : TShift σ) (now : Int) (data : List Byte) :
    (amlTimeshiftFillData io s now data).1 =
      (run (step io) s [.fill now data.length, .write data]).1 := rfl

/-- The steps that keep the cursors together. -/
def StepOk (s : TShift σ) : Op → Prop
  | .write _ => True
  | .read n => ¬ ReadStalls io s.file n
  | .seek o => s.file.total = 0 → o ≤ 0
  | .fill now size => Measures s now size →
      measuredSize s now size = s.file.size ∨
        (s.file.start + s.file.total < s.file.size ∧
          s.file.start + s.file.total < measuredSize s now size)

/-- The state after `aml_timeshift_file_open` in a timeshift of `duration` seconds. -/
def openState (sub : σ) (duration : BitVec 32) : TShift σ where
  file := amlTimeshiftFileOpen sub
  rate := 0
  duration := duration.toInt
  rtotal := 0
  rtime := 0

/-- Opened in loop mode, with a duration that fits `int`. -/
structure Running (s : TShift σ) : Prop where
  ready : Ready s.file
  duration_ge : -2 ^ 31 ≤ s.duration
  duration_lt : s.duration < 2 ^ 31

theorem running_openState (sub : σ) (d : BitVec 32) : Running (openState sub d) := by
  refine ⟨⟨rfl, rfl, by simp [openState, amlTimeshiftFileOpen, subFileSize]⟩, ?_, ?_⟩
  · exact d.le_toInt
  · exact d.toInt_lt

theorem book_openState (sub : σ) (d : BitVec 32) : Book (openState sub d).file := by
  refine ⟨?_, ?_, ?_, ?_, ?_, ?_, ?_, ?_, ?_⟩ <;>
    simp [openState, amlTimeshiftFileOpen, subFileSize]

theorem measuredSize_lt {s : TShift σ} (h : Running s) (now size : Int) :
    measuredSize s now size < 2 ^ 63 := by
  have h1 := h.duration_ge; have h2 := h.duration_lt
  unfold measuredSize
  generalize hr : i32 (((s.rtotal + size) * 1000).tdiv (now - s.rtime)) = r
  have h3 : -2 ^ 31 ≤ r := hr ▸ neg_le_i32 _
  have h4 : r < 2 ^ 31 := hr ▸ i32_lt _
  nlinarith

theorem running_step {s : TShift σ} (h : Running s) (hb : Book s.file) (op : Op) :
    Running (step io s op).1 := by
  cases op with
  | write buf => exact ⟨(write_keeps _ h.ready.loop buf).ready h.ready, h.2, h.3⟩
  | read n => exact ⟨(read_keeps _ n).ready h.ready, h.2, h.3⟩
  | seek o => exact ⟨(seek_keeps _ hb.size_pos o).ready h.ready, h.2, h.3⟩
  | fill now size =>
    have hd : (amlTimeshiftFillRate s now size).duration = s.duration := by
      simp only [amlTimeshiftFillRate]
      split <;> (try split) <;> (try split) <;> (try split) <;> rfl
    refine ⟨?_, hd ▸ h.2, hd ▸ h.3⟩
    by_cases hm : Measures s now size
    · simp only [step, fillRate_file h.ready.loop hm]
      exact ⟨h.ready.opened, h.ready.loop, measuredSize_lt h now size⟩
    · simp only [step, fillRate_file_of_not hm]
      exact h.ready

/-- One step from a state whose cursors agree keeps them together exactly when
it is one of the admissible ones. -/
theorem book_step_iff {s : TShift σ} (h : Running s) (hb : Book s.file) (op : Op) :
    Book (step io s op).1.file ↔ StepOk io s op := by
  cases op with
  | write buf => exact iff_of_true (book_write h.ready hb buf) trivial
  | read n => exact book_read_iff h.ready hb n
  | seek o => exact book_seek_iff hb o
  | fill now size =>
    by_cases hm : Measures s now size
    · simp only [step, fillRate_file h.ready.loop hm, StepOk, hm, true_implies]
      exact book_resize_iff hb _
    · simp only [step, fillRate_file_of_not hm, StepOk, hm, false_implies]
      exact iff_of_true hb trivial

/-- **Bookkeeping of the ring.** From the freshly opened file, over any
sub-file layer and any sequence of calls, the cursors agree in every state
reached exactly when no step of the run is one of the excluded ones. -/
theorem cursors_agree_iff (sub : σ) (duration : BitVec 32) (ops : List Op) :
    Always (fun s => Book s.file) (step io) (openState sub duration) ops ↔
      Each (StepOk io) (step io) (openState sub duration) ops :=
  always_iff_each (fun _ op h hb => book_step_iff io h hb op)
    (fun _ op h hb => running_step io h hb op)
    (running_openState sub duration) (book_openState sub duration)

/-- A sub-file layer on which every transfer is complete. -/
def completeOps : SubfileOps Unit where
  read _ n := ((), n, List.replicate n 0)
  write _ b := ((), b.length)
  seek _ _ _ := ()
  read_le _ _ := le_refl _
  write_le _ _ := le_refl _

/-- A seek in the freshly opened ring separates the cursors. -/
theorem cursors_apart_after_seek :
    ¬ Always (fun s => Book s.file) (step completeOps) (openState () 3600#32) [.seek 5] := by
  intro h
  have hok := (book_step_iff completeOps (running_openState () 3600#32)
    (book_openState () 3600#32) (.seek 5)).1 h.2
  have : (5 : Int) ≤ 0 := hok rfl
  omega

end VendorAmlogic.Timeshift
