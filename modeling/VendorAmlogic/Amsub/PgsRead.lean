import VendorAmlogic.Amsub.PgsBitmap

/-!
# What rendering reads

The pointer of `af_pgs_subtitle_rlebitmap_render` by itself: the bytes of the
object that are read, without the drawing. They are those of the codes of the
object till the picture is full or the object is over.
-/

namespace VendorAmlogic.Amsub.Pgs

open VendorAmlogic.Lib

/-! ## Model -/

namespace ShowData

/-- The bytes of a run behind its 00. -/
def runReads (s : ShowData) (ptr : Nat) : List Nat :=
  let b := s.rleBuf ptr
  if b &&& 0x40 ≠ 0 then
    if b &&& 0x80 ≠ 0 then [ptr, ptr + 1, ptr + 2] else [ptr, ptr + 1]
  else
    if b &&& 0x80 ≠ 0 then [ptr, ptr + 1] else [ptr]

/-- One round of the inner loop: the next `x` and `ptr`, and what is read. -/
def readRun (s : ShowData) (x ptr : Nat) : Nat × Nat × List Nat :=
  if s.rleBuf ptr = 0 ∧ s.rleBuf (ptr + 1) = 0 then
    (if 0 < x then s.imageWidth else x, ptr + 2, [ptr, ptr + 1])
  else if s.rleBuf ptr ≠ 0 then (x + 1, ptr + 1, [ptr])
  else
    let r := s.runAt (ptr + 1)
    (x + r.1, r.2.2, ptr :: s.runReads (ptr + 1))

theorem readRun_lt (s : ShowData) (x ptr : Nat) : ptr < (s.readRun x ptr).2.1 := by
  have hrun := s.runAt_lt (ptr + 1)
  unfold readRun
  split
  · simp only
    omega
  · split
    · exact Nat.lt_succ_self ptr
    · simp only
      omega

/-- The inner loop: the pointer behind it, and what it reads. -/
def readRow (s : ShowData) (x ptr : Nat) : Nat × List Nat :=
  if x < s.imageWidth ∧ ptr < s.rleBufSize then
    let r := s.readRun x ptr
    let q := s.readRow r.1 r.2.1
    (q.1, r.2.2 ++ q.2)
  else (ptr, [])
termination_by s.rleBufSize - ptr
decreasing_by
  have := s.readRun_lt x ptr
  omega

/-- The outer loop. -/
def readRows (s : ShowData) (y ptr : Nat) : List Nat :=
  if y < s.imageHeight ∧ ptr < s.rleBufSize then
    let q := s.readRow 0 ptr
    q.2 ++ s.readRows (y + 1) q.1
  else []
termination_by s.imageHeight - y

def reads (s : ShowData) : List Nat := s.readRows 0 0

end ShowData

/-! ## Codes -/

/-- A run, or the end of a line. -/
abbrev Code := Option Run

namespace Code

def bytes : Code → List Byte
  | none => [0, 0]
  | some r => r.bytes

def Valid : Code → Prop
  | none => True
  | some r => r.Valid

/-- Where a code leads to in a row. -/
def advance (width x : Nat) : Code → Nat
  | none => if 0 < x then width else x
  | some r => x + r.length

end Code

def codeBytes (cs : List Code) : List Byte := cs.flatMap Code.bytes

/-- From `x` on in row `y`, the codes lead to the end of the picture. -/
def Fills (width height : Nat) : Nat → Nat → List Code → Prop
  | _, y, [] => height ≤ y
  | x, y, c :: cs =>
    height ≤ y ∨
      if width ≤ c.advance width x then Fills width height 0 (y + 1) cs
      else Fills width height (c.advance width x) y cs

/-- The bytes begin with codes that fill the picture, or they are codes and all there is. -/
def Covers (width height : Nat) (whole : Prop) (x y : Nat) (l : List Byte) : Prop :=
  (∃ cs rest, (∀ c ∈ cs, Code.Valid c) ∧ l = codeBytes cs ++ rest ∧ Fills width height x y cs) ∨
    (whole ∧ ∃ cs, (∀ c ∈ cs, Code.Valid c) ∧ l = codeBytes cs)

/-! ## One code -/

section

variable {s : ShowData} {x y ptr n : Nat} {c : Code}

theorem bytes_pos (c : Code) : 0 < c.bytes.length := by
  cases c with
  | none => exact Nat.zero_lt_two
  | some r =>
    obtain ⟨b, bs, h⟩ := ShowData.bytes_ne_nil r
    rw [Code.bytes, h]
    exact Nat.succ_pos _

theorem runReads_eq (s : ShowData) (ptr : Nat) :
    s.runReads ptr = List.range' ptr ((s.runAt ptr).2.2 - ptr) := by
  unfold ShowData.runReads ShowData.runAt
  simp only
  split <;> split <;> simp [List.range']

/-- A code in the object is read as such. -/
theorem readRun_eq (hc : c.Valid) (h : s.rleBuf.read ptr c.bytes.length = c.bytes) :
    s.readRun x ptr =
      (c.advance s.imageWidth x, ptr + c.bytes.length, List.range' ptr c.bytes.length) := by
  -- the object as if it ended behind the code
  have hat : ({ s with rleBufSize := ptr + c.bytes.length } : ShowData).At ptr c.bytes := ⟨h, rfl⟩
  unfold ShowData.readRun
  cases c with
  | none =>
    obtain ⟨h0, hat⟩ := ShowData.at_cons.mp hat
    obtain ⟨h1, -⟩ := ShowData.at_cons.mp hat
    rw [if_pos ⟨h0, h1⟩]
    rfl
  | some r =>
    rcases ShowData.bytes_form r with ⟨b, rfl⟩ | ⟨bs, hb⟩
    · obtain ⟨h0, -⟩ := ShowData.at_cons.mp hat
      have h0' : s.rleBuf ptr = b := h0
      have hb : b ≠ 0 := hc
      rw [h0', if_neg fun h => hb h.1, if_pos hb]
      rfl
    · have hbytes : Code.bytes (some r) = 0 :: bs := hb
      rw [hbytes] at hat ⊢
      obtain ⟨h0, hat⟩ := ShowData.at_cons.mp hat
      have h0' : s.rleBuf ptr = 0 := h0
      rw [← List.append_nil bs] at hat
      obtain ⟨hne, hrun⟩ := ShowData.runAt_eq hc hb hat
      have hne' : s.rleBuf (ptr + 1) ≠ 0 := hne
      have hrun' : s.runAt (ptr + 1) = (r.length, r.color, ptr + 1 + bs.length) := hrun
      rw [h0', if_neg fun h => hne' h.2, if_neg (not_not.mpr rfl), runReads_eq, hrun',
        List.length_cons]
      simp only [Code.advance, Nat.add_sub_cancel_left, List.range'_succ]
      congr 2
      omega

/-- The forms that the byte behind a 00 has. -/
theorem second_byte : ∀ b : Fin 256,
    let v : Byte := BitVec.ofFin b
    let n := (v &&& 0x3F).toNat
    n < 64 ∧
      (v &&& 0x40 = 0 → v &&& 0x80 = 0 → v = BitVec.ofNat 8 n) ∧
      (v &&& 0x40 = 0 → v &&& 0x80 ≠ 0 → v = 0x80 ||| BitVec.ofNat 8 n) ∧
      (v &&& 0x40 ≠ 0 → v &&& 0x80 = 0 → v = 0x40 ||| BitVec.ofNat 8 n) ∧
      (v &&& 0x40 ≠ 0 → v &&& 0x80 ≠ 0 → v = 0xC0 ||| BitVec.ofNat 8 n) := by
  decide +kernel

theorem longCount_parts (n : Nat) (lo : Byte) :
    BitVec.ofNat 8 ((n * 256 + lo.toNat) / 256) = BitVec.ofNat 8 n ∧
      BitVec.ofNat 8 ((n * 256 + lo.toNat) % 256) = lo := by
  have hlo := lo.isLt
  rw [show (n * 256 + lo.toNat) / 256 = n by omega,
    show (n * 256 + lo.toNat) % 256 = lo.toNat by omega]
  exact ⟨rfl, BitVec.ofNat_toNat 8 lo ▸ BitVec.setWidth_eq lo⟩

theorem read_two (m : Mem) (p : Nat) : m.read p 2 = [m p, m (p + 1)] := by
  rw [Mem.read_succ, Mem.read_succ]
  rfl

/-- Whatever the bytes are, they begin with a code. -/
theorem exists_code (m : Mem) (p : Nat) :
    ∃ c : Code, c.Valid ∧ m.read p c.bytes.length = c.bytes := by
  by_cases h0 : m p = 0
  swap
  · exact ⟨some (.single (m p)), h0, rfl⟩
  by_cases h1 : m (p + 1) = 0
  · refine ⟨none, trivial, ?_⟩
    show m.read p 2 = [0, 0]
    rw [read_two, h0, h1]
  have hthree : ∀ q, m.read q 3 = [m q, m (q + 1), m (q + 2)] := fun q => by
    rw [Mem.read_succ, read_two]
  have hfour : ∀ q, m.read q 4 = [m q, m (q + 1), m (q + 2), m (q + 3)] := fun q => by
    rw [Mem.read_succ, hthree]
  obtain ⟨hn, hzeros, hcolored, hlong, hlongColored⟩ := second_byte (m (p + 1)).toFin
  change (m (p + 1) &&& 0x3F).toNat < 64 at hn
  change _ → _ → m (p + 1) = _ at hzeros hcolored hlong hlongColored
  generalize (m (p + 1) &&& 0x3F).toNat = n at hn hzeros hcolored hlong hlongColored
  by_cases h40 : m (p + 1) &&& 0x40 = 0
  · by_cases h80 : m (p + 1) &&& 0x80 = 0
    · have hb := hzeros h40 h80
      have hpos : 0 < n := Nat.pos_of_ne_zero fun h => h1 (by rw [hb, h]; rfl)
      refine ⟨some (.zeros n), ⟨hpos, hn⟩, ?_⟩
      show m.read p 2 = [0, BitVec.ofNat 8 n]
      rw [read_two, h0, hb]
    · refine ⟨some (.colored n (m (p + 2))), hn, ?_⟩
      show m.read p 3 = [0, 0x80 ||| BitVec.ofNat 8 n, m (p + 2)]
      rw [hthree, h0, hcolored h40 h80]
  · have hlt : n * 256 + (m (p + 2)).toNat < 0x4000 := by
      have := (m (p + 2)).isLt
      omega
    obtain ⟨hhi, hlo⟩ := longCount_parts n (m (p + 2))
    by_cases h80 : m (p + 1) &&& 0x80 = 0
    · refine ⟨some (.longZeros (n * 256 + (m (p + 2)).toNat)), hlt, ?_⟩
      show m.read p 3 = [0, 0x40 ||| BitVec.ofNat 8 _, BitVec.ofNat 8 _]
      rw [hthree, h0, hlong h40 h80, hhi, hlo]
    · refine ⟨some (.longColored (n * 256 + (m (p + 2)).toNat) (m (p + 3))), hlt, ?_⟩
      show m.read p 4 = [0, 0xC0 ||| BitVec.ofNat 8 _, BitVec.ofNat 8 _, m (p + 3)]
      rw [hfour, h0, hlongColored h40 h80, hhi, hlo]

/-- The codes at one place are read the same. -/
theorem code_unique {c' : Code} (hc : c.Valid) (h : s.rleBuf.read ptr c.bytes.length = c.bytes)
    (hc' : c'.Valid) (h' : s.rleBuf.read ptr c'.bytes.length = c'.bytes) (x : Nat) :
    c.advance s.imageWidth x = c'.advance s.imageWidth x ∧ c.bytes = c'.bytes := by
  have heq := (readRun_eq (x := x) hc h).symm.trans (readRun_eq (x := x) hc' h')
  rw [Prod.mk.injEq, Prod.mk.injEq] at heq
  have hlen : c.bytes.length = c'.bytes.length := by omega
  exact ⟨heq.1, by rw [← h, ← h', hlen]⟩

/-! ## Reading on -/

variable {width height k : Nat} {whole : Prop}

/-- What bytes in the object begin with, if they begin with a code. -/
theorem codeBytes_head {c' : Code} {cs : List Code} {rest : List Byte}
    (h : s.rleBuf.read ptr k = codeBytes (c' :: cs) ++ rest) :
    s.rleBuf.read ptr c'.bytes.length = c'.bytes ∧ c'.bytes.length ≤ k ∧
      s.rleBuf.read (ptr + c'.bytes.length) (k - c'.bytes.length) = codeBytes cs ++ rest := by
  rw [codeBytes, List.flatMap_cons, List.append_assoc] at h
  have hlen := congrArg List.length h
  rw [Mem.length_read, List.length_append] at hlen
  obtain ⟨h1, h2⟩ := Mem.read_of_append h
  refine ⟨h1, by omega, Eq.trans ?_ h2⟩
  congr 1
  omega

theorem covers_cons (hy : y < height) (hc : c.Valid)
    (h : s.rleBuf.read ptr c.bytes.length = c.bytes) (hk : c.bytes.length ≤ k) :
    Covers s.imageWidth height whole x y (s.rleBuf.read ptr k) ↔
      if s.imageWidth ≤ c.advance s.imageWidth x then
        Covers s.imageWidth height whole 0 (y + 1)
          (s.rleBuf.read (ptr + c.bytes.length) (k - c.bytes.length))
      else
        Covers s.imageWidth height whole (c.advance s.imageWidth x) y
          (s.rleBuf.read (ptr + c.bytes.length) (k - c.bytes.length)) := by
  have hsplit : s.rleBuf.read ptr k =
      c.bytes ++ s.rleBuf.read (ptr + c.bytes.length) (k - c.bytes.length) := by
    rw [← h, Mem.length_read, ← Mem.read_add]
    congr 1
    omega
  have hpos := bytes_pos c
  have hne : s.rleBuf.read ptr k ≠ [] := by
    rw [hsplit]
    exact List.append_ne_nil_of_left_ne_nil (List.length_pos_iff.mp hpos) _
  constructor
  · rintro (⟨cs, rest, hv, hl, hf⟩ | ⟨hw, cs, hv, hl⟩)
    · cases cs with
      | nil => exact absurd hf (Nat.not_le.mpr hy)
      | cons c' cs =>
        obtain ⟨h', -, hrest⟩ := codeBytes_head hl
        obtain ⟨hadv, hbytes⟩ := code_unique hc h (hv c' List.mem_cons_self) h' x
        have hf' := hf.resolve_left (Nat.not_le.mpr hy)
        have hv' := fun c hc => hv c (List.mem_cons_of_mem _ hc)
        rw [← hadv] at hf'
        rw [← hbytes] at hrest
        split
        · rename_i hle
          rw [if_pos hle] at hf'
          exact .inl ⟨cs, rest, hv', hrest, hf'⟩
        · rename_i hle
          rw [if_neg hle] at hf'
          exact .inl ⟨cs, rest, hv', hrest, hf'⟩
    · cases cs with
      | nil => exact absurd hl hne
      | cons c' cs =>
        obtain ⟨h', -, hrest⟩ := codeBytes_head (hl.trans (List.append_nil _).symm)
        obtain ⟨-, hbytes⟩ := code_unique hc h (hv c' List.mem_cons_self) h' x
        have hv' := fun c hc => hv c (List.mem_cons_of_mem _ hc)
        rw [← hbytes, List.append_nil] at hrest
        split
        · exact .inr ⟨hw, cs, hv', hrest⟩
        · exact .inr ⟨hw, cs, hv', hrest⟩
  · have back : ∀ {x' y'}, (∀ cs, Fills s.imageWidth height x' y' cs →
        Fills s.imageWidth height x y (c :: cs)) → Covers s.imageWidth height whole x' y'
          (s.rleBuf.read (ptr + c.bytes.length) (k - c.bytes.length)) →
        Covers s.imageWidth height whole x y (s.rleBuf.read ptr k) := by
      rintro x' y' hfill (⟨cs, rest, hv, hl, hf⟩ | ⟨hw, cs, hv, hl⟩)
      · refine .inl ⟨c :: cs, rest, List.forall_mem_cons.mpr ⟨hc, hv⟩, ?_, hfill cs hf⟩
        rw [hsplit, hl, codeBytes, codeBytes, List.flatMap_cons, List.append_assoc]
      · refine .inr ⟨hw, c :: cs, List.forall_mem_cons.mpr ⟨hc, hv⟩, ?_⟩
        rw [hsplit, hl, codeBytes, codeBytes, List.flatMap_cons]
    split
    · rename_i hle
      exact back fun cs hf => .inr (by rw [if_pos hle]; exact hf)
    · rename_i hle
      exact back fun cs hf => .inr (by rw [if_neg hle]; exact hf)

/-- A code that is cut off. -/
theorem not_covers (hy : y < height) (hc : c.Valid)
    (h : s.rleBuf.read ptr c.bytes.length = c.bytes) (hk : k < c.bytes.length)
    (hend : k = 0 → ¬ whole) :
    ¬ Covers s.imageWidth height whole x y (s.rleBuf.read ptr k) := by
  have hcut : ∀ {c' cs rest}, Code.Valid c' →
      s.rleBuf.read ptr k ≠ codeBytes (c' :: cs) ++ rest := by
    intro c' cs rest hc' hl
    obtain ⟨h', hle, -⟩ := codeBytes_head hl
    obtain ⟨-, hbytes⟩ := code_unique hc h hc' h' x
    rw [hbytes] at hk
    omega
  rintro (⟨cs, rest, hv, hl, hf⟩ | ⟨hw, cs, hv, hl⟩)
  · cases cs with
    | nil => exact absurd hf (Nat.not_le.mpr hy)
    | cons c' cs => exact hcut (hv c' List.mem_cons_self) hl
  · cases cs with
    | nil =>
      have hlen := congrArg List.length hl
      rw [Mem.length_read] at hlen
      exact hend hlen hw
    | cons c' cs =>
      exact hcut (hv c' List.mem_cons_self) (hl.trans (List.append_nil _).symm)

/-- What is read from a place in a row on. -/
def ShowData.readsFrom (s : ShowData) (y x ptr : Nat) : List Nat :=
  (s.readRow x ptr).2 ++ s.readRows (y + 1) (s.readRow x ptr).1

theorem readRows_eq (hy : y < s.imageHeight) : s.readRows y ptr = s.readsFrom y 0 ptr := by
  by_cases hptr : ptr < s.rleBufSize
  · rw [ShowData.readRows, if_pos ⟨hy, hptr⟩, ShowData.readsFrom]
  · rw [ShowData.readRows, if_neg fun h => hptr h.2, ShowData.readsFrom, ShowData.readRow,
      if_neg fun h => hptr h.2, ShowData.readRows, if_neg fun h => hptr h.2]
    rfl

theorem readsFrom_row (hx : s.imageWidth ≤ x) : s.readsFrom y x ptr = s.readRows (y + 1) ptr := by
  rw [ShowData.readsFrom, ShowData.readRow, if_neg fun h => Nat.not_lt.mpr hx h.1]
  rfl

theorem readsFrom_end (hptr : s.rleBufSize ≤ ptr) : s.readsFrom y x ptr = [] := by
  rw [ShowData.readsFrom, ShowData.readRow, if_neg fun h => Nat.not_lt.mpr hptr h.2,
    ShowData.readRows, if_neg fun h => Nat.not_lt.mpr hptr h.2]
  rfl

theorem readsFrom_code (hx : x < s.imageWidth) (hptr : ptr < s.rleBufSize) (hc : c.Valid)
    (h : s.rleBuf.read ptr c.bytes.length = c.bytes) :
    s.readsFrom y x ptr = List.range' ptr c.bytes.length ++
      s.readsFrom y (c.advance s.imageWidth x) (ptr + c.bytes.length) := by
  rw [ShowData.readsFrom, ShowData.readRow, if_pos ⟨hx, hptr⟩]
  simp only [readRun_eq hc h, List.append_assoc]
  rfl

/-- **Reading from a place in a row on**: it stays among the first `n` bytes just when these cover
what is left of the picture. -/
theorem readsFrom_iff (hn : n ≤ s.rleBufSize) (hy : y < s.imageHeight) (hx : x < s.imageWidth)
    (hptr : ptr ≤ n) :
    (∀ o ∈ s.readsFrom y x ptr, o < n) ↔
      Covers s.imageWidth s.imageHeight (s.rleBufSize = n) x y (s.rleBuf.read ptr (n - ptr)) := by
  induction hm : s.rleBufSize - ptr using Nat.strongRecOn generalizing x y ptr with
  | ind m ih =>
    by_cases hend : s.rleBufSize ≤ ptr
    · -- the object is over, and all of it was there
      rw [readsFrom_end hend]
      refine iff_of_true (fun o ho => absurd ho List.not_mem_nil) (.inr ⟨by omega, [], ?_, ?_⟩)
      · exact fun c hc => absurd hc List.not_mem_nil
      · rw [Nat.sub_eq_zero_of_le (by omega)]
        rfl
    obtain ⟨c, hc, hread⟩ := exists_code s.rleBuf ptr
    have hpos := bytes_pos c
    rw [readsFrom_code hx (by omega) hc hread]
    by_cases hle : ptr + c.bytes.length ≤ n
    · have hrange : (∀ o ∈ List.range' ptr c.bytes.length ++
          s.readsFrom y (c.advance s.imageWidth x) (ptr + c.bytes.length), o < n) ↔
          ∀ o ∈ s.readsFrom y (c.advance s.imageWidth x) (ptr + c.bytes.length), o < n := by
        rw [List.forall_mem_append]
        refine and_iff_right fun o ho => ?_
        have := List.mem_range'_1.mp ho
        omega
      rw [hrange, covers_cons hy hc hread (by omega), Nat.sub_sub]
      by_cases hadv : s.imageWidth ≤ c.advance s.imageWidth x
      · rw [if_pos hadv, readsFrom_row hadv]
        by_cases hy' : y + 1 < s.imageHeight
        · rw [readRows_eq hy']
          exact ih _ (by omega) hy' (by omega) hle rfl
        · rw [ShowData.readRows, if_neg fun h => hy' h.1]
          refine iff_of_true (fun o ho => absurd ho List.not_mem_nil) (.inl ⟨[], _, ?_, rfl, ?_⟩)
          · exact fun c hc => absurd hc List.not_mem_nil
          · exact Nat.not_lt.mp hy'
      · rw [if_neg hadv]
        exact ih _ (by omega) hy (by omega) hle rfl
    · refine iff_of_false (fun hall => ?_) (not_covers hy hc hread (by omega) (by omega))
      have hmem : n ∈ List.range' ptr c.bytes.length := List.mem_range'_1.mpr (by omega)
      exact absurd (hall n (List.mem_append_left _ hmem)) (Nat.lt_irrefl n)

/-- **Rendering**: it reads among the first `n` bytes of the object just when these cover the
picture. -/
theorem reads_iff (hn : n ≤ s.rleBufSize) (hw : 0 < s.imageWidth) (hh : 0 < s.imageHeight) :
    (∀ o ∈ s.reads, o < n) ↔
      Covers s.imageWidth s.imageHeight (s.rleBufSize = n) 0 0 (s.rleBuf.read 0 n) := by
  rw [ShowData.reads, readRows_eq hh]
  exact readsFrom_iff hn hh hw (Nat.zero_le n)

/-! ## The pointer of the render loop -/

variable {mode : Bool} {buf buf' : Mem}

theorem renderRun_read {x' ptr' : Nat} (h : s.renderRun mode y x ptr buf = some (x', ptr', buf')) :
    (s.readRun x ptr).1 = x' ∧ (s.readRun x ptr).2.1 = ptr' := by
  unfold ShowData.renderRun at h
  unfold ShowData.readRun
  by_cases h0 : s.rleBuf ptr = 0 ∧ s.rleBuf (ptr + 1) = 0
  · rw [if_pos h0] at h ⊢
    split at h
    · rename_i hx
      obtain ⟨_, -, h⟩ := Option.map_eq_some_iff.mp h
      rw [if_pos hx]
      cases h
      exact ⟨rfl, rfl⟩
    · rename_i hx
      rw [if_neg hx]
      cases h
      exact ⟨rfl, rfl⟩
  · rw [if_neg h0] at h ⊢
    split at h
    · rename_i hne
      obtain ⟨_, -, h⟩ := Option.map_eq_some_iff.mp h
      rw [if_pos hne]
      cases h
      exact ⟨rfl, rfl⟩
    · rename_i hne
      obtain ⟨_, -, h⟩ := Option.map_eq_some_iff.mp h
      rw [if_neg hne]
      cases h
      exact ⟨rfl, rfl⟩

/-- The row that is drawn ends where the row that is read does. -/
theorem renderRow_read {ptr' : Nat} (h : s.renderRow mode y x ptr buf = some (ptr', buf')) :
    (s.readRow x ptr).1 = ptr' := by
  induction hm : s.rleBufSize - ptr using Nat.strongRecOn generalizing x ptr buf with
  | ind m ih =>
    rw [ShowData.renderRow_eq] at h
    rw [ShowData.readRow]
    by_cases hin : x < s.imageWidth ∧ ptr < s.rleBufSize
    · rw [if_pos hin] at h ⊢
      obtain ⟨⟨x', p', b⟩, hrun, h⟩ := Option.bind_eq_some_iff.mp h
      obtain ⟨rfl, rfl⟩ := renderRun_read hrun
      have hlt := s.readRun_lt x ptr
      exact ih _ (by omega) h rfl
    · rw [if_neg hin] at h ⊢
      cases h
      rfl

end

end VendorAmlogic.Amsub.Pgs
