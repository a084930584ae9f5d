import VendorAmlogic.Lib.Run
import VendorAmlogic.Amsub.PgsPacket
import VendorAmlogic.Amsub.PgsRead

/-!
# Decoding PGS segments

`read_color_table`, `read_bitmap` and `pgs_decode` of
`libsub_pgs/amsub_pgs_dec.c`, with what they read and copy. The other segment
types set only fields that the bitmap does not use. What `malloc` gives is part
of the input. An `int` product wraps.
-/

namespace VendorAmlogic.Amsub.Pgs

open VendorAmlogic.Lib

/-! ## Model -/

/-- Memory for an object, with its size. -/
structure RleBuf where
  data : Mem
  cap : Nat

/-- `pgs_info_t`, what the bitmap uses of it. -/
structure PgsInfo where
  palette : Byte → BitVec 32
  image_width : Nat
  image_height : Nat
  rle_buf : Option RleBuf
  rle_buf_size : Nat
  rle_rd_off : Int

/-- A `memcpy` into a buffer of size `cap`. -/
structure Copy where
  off : Int
  len : Int
  cap : Nat

/-- What a segment makes the decoder read of it, copy into `rle_buf` and, when it is rendered, read
there, where `received` bytes are. -/
structure Trace where
  reads : List Nat
  copies : List Copy
  rendered : List Nat
  received : Int

/-- A colour in YCbCr, made with bytes that wrap. -/
def colorOf (y u v a : Byte) : BitVec 32 :=
  let y : Int := (y - 16).toNat
  let u : Int := (u - 128).toNat
  let v : Int := (v - 128).toNat
  let r := BitVec.ofInt 8 ((298 * y + 409 * v + 128) / 256)
  let g := BitVec.ofInt 8 ((298 * y - 100 * u - 208 * v + 128) / 256)
  let b := BitVec.ofInt 8 ((298 * y + 516 * u + 128) / 256)
  r ++ g ++ b ++ a

/-- The loop of `read_color_table`, from `pos` on. -/
def colorLoop (buf : List Byte) (pos : Nat) (palette : Byte → BitVec 32) :
    (Byte → BitVec 32) × List Nat :=
  if pos < buf.length then
    let at' := fun i => buf.getD (pos + i) 0
    let r := colorLoop buf (pos + 5)
      (Function.update palette (at' 0) (colorOf (at' 1) (at' 2) (at' 3) (at' 4)))
    (r.1, [pos + 1, pos + 2, pos + 3, pos, pos + 4] ++ r.2)
  else (palette, [])
termination_by buf.length - pos

def readColorTable (info : PgsInfo) (buf : List Byte) : PgsInfo × Trace :=
  let r := colorLoop buf 2 info.palette
  ({ info with palette := r.1 }, ⟨r.2, [], [], 0⟩)

def isFirst (buf : List Byte) : Bool := buf.getD 3 0 &&& 0x80 ≠ 0

def isLast (buf : List Byte) : Bool := buf.getD 3 0 &&& 0x40 ≠ 0

/-- Where the bytes of the object begin in a fragment. -/
def fragmentAt (buf : List Byte) : Nat := if isFirst buf then 11 else 4

def objectSize (buf : List Byte) : Nat :=
  (buf.getD 4 0).toNat <<< 16 ||| (buf.getD 5 0).toNat <<< 8 ||| (buf.getD 6 0).toNat

/-- The first part of `read_bitmap`: a first fragment begins a new object. -/
def beginObject (info : PgsInfo) (buf : List Byte) (mem : Option Mem) : PgsInfo :=
  if isFirst buf then
    { info with
      image_width := be16 (buf.getD 7 0) (buf.getD 8 0)
      image_height := be16 (buf.getD 9 0) (buf.getD 10 0)
      rle_buf := mem.map fun m => ⟨m, objectSize buf⟩
      rle_buf_size := if mem.isSome then objectSize buf else 0
      rle_rd_off := 0 }
  else info

/-- `read_bitmap`, without its result. -/
def readBitmap (info : PgsInfo) (buf : List Byte) (mem : Option Mem) : PgsInfo × Trace :=
  let info := beginObject info buf mem
  let head := if isFirst buf then [1, 2, 3, 4, 5, 6, 7, 8, 9, 10] else [1, 2, 3]
  let rleBytes : Int := buf.length - fragmentAt buf
  match info.rle_buf with
  | none => (info, ⟨head, [], [], 0⟩)
  | some b =>
    if info.rle_rd_off + rleBytes ≤ info.rle_buf_size then
      let data := b.data.copy info.rle_rd_off.toNat (buf.drop (fragmentAt buf))
      ({ info with
          rle_buf := some { b with data := data }
          rle_rd_off := info.rle_rd_off + rleBytes },
        ⟨head ++ List.range' (fragmentAt buf) rleBytes.toNat, [⟨info.rle_rd_off, rleBytes, b.cap⟩],
          [], info.rle_rd_off + rleBytes⟩)
    else (info, ⟨head, [], [], info.rle_rd_off⟩)

/-- What rendering sees; there is nothing at the null pointer. -/
def PgsInfo.showData (info : PgsInfo) : ShowData :=
  ⟨info.image_width, info.image_height, info.palette,
    match info.rle_buf with
    | some b => b.data
    | none => fun _ => 0,
    info.rle_buf_size⟩

/-- `parser_one_pgs`: what it reads of the object. `mem` says that there is memory for the
picture. -/
def parserOnePgs (info : PgsInfo) (mem : Bool) : List Nat :=
  let buffer_size := i32 (info.image_width * info.image_height * 4)
  if buffer_size ≤ 0 then []
  else if ¬ mem then []
  else info.showData.reads

/-- A segment, with what `malloc` gives for the object and for the picture. -/
structure Input where
  type : Byte
  buf : List Byte
  objectMem : Option Mem
  pictureMem : Bool

def pgsDecode (info : PgsInfo) (i : Input) : PgsInfo × Trace :=
  if i.type = 0x14 then readColorTable info i.buf
  else if i.type = 0x15 then
    let r := readBitmap info i.buf i.objectMem
    if isLast i.buf then
      ({ r.1 with rle_buf := none }, { r.2 with rendered := parserOnePgs r.1 i.pictureMem })
    else r
  else (info, ⟨[], [], [], 0⟩)

/-- `init_pgs_subtitle`. -/
def initInfo : PgsInfo := ⟨fun _ => 0, 0, 0, none, 0, 0⟩

/-- The segment is read within it, copied into the object within that, and of the object only what
was received is read. -/
structure InBounds (info : PgsInfo) (i : Input) : Prop where
  reads : ∀ o ∈ (pgsDecode info i).2.reads, o < i.buf.length
  copies : ∀ c ∈ (pgsDecode info i).2.copies, 0 ≤ c.len ∧ 0 ≤ c.off ∧ c.off + c.len ≤ c.cap
  rendered : ∀ o ∈ (pgsDecode info i).2.rendered, (o : Int) < (pgsDecode info i).2.received

/-! ## Objects -/

/-- An object as its fragments make it; `data` is there while the object is gathered. -/
structure Object where
  width : Nat
  height : Nat
  size : Nat
  data : Option (List Byte)

namespace Object

def received (o : Object) : List Byte := o.data.getD []

/-- The object that a fragment is for. -/
def begin (o : Object) (buf : List Byte) (mem : Bool) : Object :=
  if isFirst buf then
    ⟨be16 (buf.getD 7 0) (buf.getD 8 0), be16 (buf.getD 9 0) (buf.getD 10 0),
      if mem then objectSize buf else 0, if mem then some [] else none⟩
  else o

/-- A fragment that is too long for the object is left out. -/
def append (o : Object) (fragment : List Byte) : Object :=
  match o.data with
  | none => o
  | some l =>
    if l.length + fragment.length ≤ o.size then { o with data := some (l ++ fragment) } else o

def add (o : Object) (buf : List Byte) (mem : Bool) : Object :=
  (o.begin buf mem).append (buf.drop (fragmentAt buf))

/-- What was received covers the picture, or it is the whole object and ends with a code. -/
def Complete (o : Object) : Prop :=
  Covers o.width o.height (o.size = o.received.length) 0 0 o.received

/-- It is complete, if its picture is made. -/
def Renderable (o : Object) (pictureMem : Bool) : Prop :=
  0 < i32 (o.width * o.height * 4) → pictureMem = true → o.Complete

end Object

def PgsInfo.object (info : PgsInfo) : Object where
  width := info.image_width
  height := info.image_height
  size := info.rle_buf_size
  data := info.rle_buf.map fun b => b.data.read 0 info.rle_rd_off.toNat

/-- Whole colours; a bitmap segment with its header, that, when it is the last of its object and the
picture is made, leaves the object complete. -/
def Sound (info : PgsInfo) (i : Input) : Prop :=
  (i.type = 0x14 → i.buf.length ≤ 2 ∨ 5 ∣ i.buf.length - 2) ∧
    (i.type = 0x15 → fragmentAt i.buf ≤ i.buf.length ∧ (isLast i.buf = true →
      (info.object.add i.buf i.objectMem.isSome).Renderable i.pictureMem))

/-! ## Segments -/

section

variable {info : PgsInfo} {i : Input} {buf : List Byte} {mem : Option Mem}

/-- What has been received fits into the memory of the object. -/
def Gathers (info : PgsInfo) : Prop :=
  ∀ b, info.rle_buf = some b →
    0 ≤ info.rle_rd_off ∧ info.rle_rd_off ≤ info.rle_buf_size ∧ info.rle_buf_size = b.cap

/-- The colours are read in bounds when they are whole. -/
theorem colorLoop_reads (buf : List Byte) (pos : Nat) (palette : Byte → BitVec 32) :
    (∀ o ∈ (colorLoop buf pos palette).2, o < buf.length) ↔
      buf.length ≤ pos ∨ 5 ∣ buf.length - pos := by
  induction hn : buf.length - pos using Nat.strongRecOn generalizing pos palette with
  | ind n ih =>
    rw [colorLoop]
    by_cases hlt : pos < buf.length
    · rw [if_pos hlt]
      simp only [List.forall_mem_append, List.forall_mem_cons]
      rw [ih (buf.length - (pos + 5)) (by omega) _ _ rfl]
      constructor
      · rintro ⟨⟨-, -, -, -, h4, -⟩, h⟩
        omega
      · intro h
        refine ⟨⟨by omega, by omega, by omega, by omega, by omega, ?_⟩, by omega⟩
        exact fun o ho => absurd ho List.not_mem_nil
    · rw [if_neg hlt]
      exact iff_of_true (fun o ho => absurd ho List.not_mem_nil) (.inl (by omega))

theorem Gathers.begin (h : Gathers info) (buf : List Byte) (mem : Option Mem) :
    Gathers (beginObject info buf mem) := by
  unfold beginObject
  split
  · intro b hb
    cases mem with
    | none => exact absurd hb (Option.some_ne_none b).symm
    | some m =>
      obtain rfl := Option.some.inj hb
      exact ⟨Int.le_refl 0, Int.natCast_nonneg _, rfl⟩
  · exact h

theorem object_begin (info : PgsInfo) (buf : List Byte) (mem : Option Mem) :
    (beginObject info buf mem).object = info.object.begin buf mem.isSome := by
  unfold beginObject Object.begin
  split
  · cases mem <;> rfl
  · rfl

/-- What `read_bitmap` gathers of a fragment with its header. -/
structure Gathered (info : PgsInfo) (buf : List Byte) (mem : Option Mem)
    (r : PgsInfo × Trace) : Prop where
  gathers : Gathers r.1
  object_eq : r.1.object = info.object.add buf mem.isSome
  reads : ∀ o ∈ r.2.reads, o < buf.length
  copies : ∀ c ∈ r.2.copies, 0 ≤ c.len ∧ 0 ≤ c.off ∧ c.off + c.len ≤ c.cap
  received_eq : r.2.received = r.1.object.received.length
  rendered_eq : r.2.rendered = []

theorem readBitmap_gathered (h : Gathers info) (mem : Option Mem)
    (hfit : fragmentAt buf ≤ buf.length) :
    Gathered info buf mem (readBitmap info buf mem) := by
  have hg := h.begin buf mem
  have hadd : info.object.add buf mem.isSome =
      (beginObject info buf mem).object.append (buf.drop (fragmentAt buf)) := by
    rw [object_begin]
    rfl
  have hhead : ∀ o ∈ (if isFirst buf then [1, 2, 3, 4, 5, 6, 7, 8, 9, 10] else [1, 2, 3]),
      o < buf.length := by
    unfold fragmentAt at hfit
    intro o ho
    split at ho
    · rename_i hf
      rw [if_pos hf] at hfit
      simp only [List.mem_cons, List.not_mem_nil, or_false] at ho
      omega
    · rename_i hf
      rw [if_neg hf] at hfit
      simp only [List.mem_cons, List.not_mem_nil, or_false] at ho
      omega
  unfold readBitmap
  simp only
  generalize beginObject info buf mem = info' at hg hadd ⊢
  cases hbuf : info'.rle_buf with
  | none =>
    have hdata : info'.object.data = none := by
      show info'.rle_buf.map _ = none
      rw [hbuf]
      rfl
    rw [Object.append, hdata] at hadd
    refine ⟨hg, hadd.symm, hhead, fun c hc => absurd hc List.not_mem_nil, ?_, rfl⟩
    rw [Object.received, hdata]
    rfl
  | some b =>
    obtain ⟨h0, hle, hcap⟩ := hg b hbuf
    obtain ⟨n, hn⟩ := Int.eq_ofNat_of_zero_le h0
    have hdata : info'.object.data = some (b.data.read 0 n) := by
      show info'.rle_buf.map _ = _
      rw [hbuf, hn]
      rfl
    have hlen : (buf.drop (fragmentAt buf)).length = buf.length - fragmentAt buf :=
      List.length_drop
    rw [Object.append, hdata] at hadd
    simp only [Mem.length_read] at hadd
    have hsize : info'.object.size = info'.rle_buf_size := rfl
    simp only
    by_cases hroom : info'.rle_rd_off + ((buf.length : Int) - fragmentAt buf) ≤ info'.rle_buf_size
    · rw [if_pos hroom]
      rw [if_pos (by omega), ← Mem.read_copy_append] at hadd
      have hoff : (info'.rle_rd_off + ((buf.length : Int) - fragmentAt buf)).toNat =
          n + (buf.drop (fragmentAt buf)).length := by omega
      refine ⟨?_, ?_, ?_, ?_, ?_, rfl⟩
      · intro b' hb'
        obtain rfl := Option.some.inj hb'
        exact ⟨by simp only; omega, hroom, hcap⟩
      · rw [hadd]
        show Object.mk _ _ _ (some (Mem.read _ 0 _)) = _
        rw [hoff, hn]
        rfl
      · rw [List.forall_mem_append]
        refine ⟨hhead, fun o ho => ?_⟩
        have := List.mem_range'_1.mp ho
        omega
      · intro c hc
        obtain rfl := List.mem_singleton.mp hc
        exact ⟨by simp only; omega, h0, by simp only; omega⟩
      · show _ = ((Mem.read _ 0 _).length : Int)
        rw [Mem.length_read]
        simp only
        omega
    · rw [if_neg hroom]
      rw [if_neg (by omega)] at hadd
      refine ⟨hg, hadd.symm, hhead, fun c hc => absurd hc List.not_mem_nil, ?_, rfl⟩
      rw [Object.received, hdata]
      simp only [Option.getD_some, Mem.length_read]
      exact hn

/-- The bytes that were received are where rendering reads. -/
theorem showData_received (h : Gathers info) :
    info.object.received.length ≤ info.rle_buf_size ∧
      info.showData.rleBuf.read 0 info.object.received.length = info.object.received := by
  unfold Object.received PgsInfo.object PgsInfo.showData
  cases hbuf : info.rle_buf with
  | none => exact ⟨Nat.zero_le _, rfl⟩
  | some b =>
    obtain ⟨h0, hle, -⟩ := h b hbuf
    simp only [Option.map_some, Option.getD_some, Mem.length_read]
    exact ⟨by omega, trivial⟩

/-- The picture is made within what was received just when the object is complete. -/
theorem parserOnePgs_iff (h : Gathers info) (mem : Bool) :
    (∀ o ∈ parserOnePgs info mem, o < info.object.received.length) ↔
      info.object.Renderable mem := by
  have hren : info.object.Renderable mem ↔ (0 < i32 (info.image_width * info.image_height * 4) →
      mem = true → info.object.Complete) := Iff.rfl
  rw [hren]
  obtain ⟨hle, hread⟩ := showData_received h
  unfold parserOnePgs
  by_cases hsize : i32 (info.image_width * info.image_height * 4) ≤ 0
  · simp only [if_pos hsize]
    exact iff_of_true (fun o ho => absurd ho List.not_mem_nil) fun hpos => by omega
  cases mem with
  | false =>
    simp only [if_neg hsize]
    exact iff_of_true (fun o ho => absurd ho List.not_mem_nil) fun _ hm =>
      absurd hm Bool.false_ne_true
  | true =>
    simp only [if_neg hsize, not_true_eq_false, if_false]
    rw [imp_iff_right (Int.not_le.mp hsize), imp_iff_right trivial, Object.Complete, ← hread]
    -- a picture without pixels has no size
    have hzero : i32 0 = 0 := rfl
    have hw : 0 < info.image_width := Nat.pos_of_ne_zero fun h0 => hsize (by
      rw [h0, Int.natCast_zero, Int.zero_mul, Int.zero_mul, hzero])
    have hh : 0 < info.image_height := Nat.pos_of_ne_zero fun h0 => hsize (by
      rw [h0, Int.natCast_zero, Int.mul_zero, Int.zero_mul, hzero])
    rw [Mem.length_read]
    exact reads_iff (s := info.showData) hle hw hh

theorem inBounds_colors (h14 : i.type = 0x14) :
    InBounds info i ↔ i.buf.length ≤ 2 ∨ 5 ∣ i.buf.length - 2 := by
  have hdec : pgsDecode info i = readColorTable info i.buf := if_pos h14
  rw [← colorLoop_reads i.buf 2 info.palette]
  constructor
  · intro hb
    have := hb.reads
    rw [hdec] at this
    exact this
  · intro hreads
    refine ⟨?_, ?_, ?_⟩
    all_goals rw [hdec]
    · exact hreads
    · exact fun c hc => absurd hc List.not_mem_nil
    · exact fun o ho => absurd ho List.not_mem_nil

/-- A bitmap segment without its header is read beyond its end. -/
theorem readBitmap_short (info : PgsInfo) (mem : Option Mem)
    (hfit : ¬ fragmentAt buf ≤ buf.length) :
    ∃ o ∈ (readBitmap info buf mem).2.reads, ¬ o < buf.length := by
  obtain ⟨o, hmem, ho⟩ : ∃ o ∈ (if isFirst buf then [1, 2, 3, 4, 5, 6, 7, 8, 9, 10] else [1, 2, 3]),
      ¬ o < buf.length := by
    unfold fragmentAt at hfit
    split at hfit
    · exact ⟨10, by simp [*], by omega⟩
    · exact ⟨3, by simp [*], by omega⟩
  refine ⟨o, ?_, ho⟩
  unfold readBitmap
  simp only
  split
  · exact hmem
  · split
    · exact List.mem_append_left _ hmem
    · exact hmem

theorem inBounds_bitmap (h : Gathers info) (h15 : i.type = 0x15) :
    InBounds info i ↔ fragmentAt i.buf ≤ i.buf.length ∧ (isLast i.buf = true →
      (info.object.add i.buf i.objectMem.isSome).Renderable i.pictureMem) := by
  have hne : i.type ≠ 0x14 := by
    rw [h15]
    decide
  have hdec : pgsDecode info i = if isLast i.buf then
      ({ (readBitmap info i.buf i.objectMem).1 with rle_buf := none },
        { (readBitmap info i.buf i.objectMem).2 with
          rendered := parserOnePgs (readBitmap info i.buf i.objectMem).1 i.pictureMem })
      else readBitmap info i.buf i.objectMem := by
    rw [pgsDecode, if_neg hne, if_pos h15]
  have hshort := fun hfit : ¬ fragmentAt i.buf ≤ i.buf.length =>
    readBitmap_short info i.objectMem hfit
  have hgathered := fun hfit : fragmentAt i.buf ≤ i.buf.length =>
    readBitmap_gathered h i.objectMem hfit
  generalize readBitmap info i.buf i.objectMem = r at hdec hshort hgathered
  obtain ⟨info', reads, copies, rendered, received⟩ := r
  simp only at hdec hshort
  by_cases hfit : fragmentAt i.buf ≤ i.buf.length
  swap
  · refine iff_of_false (fun hb => ?_) fun hc => hfit hc.1
    obtain ⟨o, hmem, ho⟩ := hshort hfit
    have hreads := hb.reads
    rw [hdec] at hreads
    by_cases hlast : isLast i.buf = true
    · rw [if_pos hlast] at hreads
      exact ho (hreads o hmem)
    · rw [if_neg hlast] at hreads
      exact ho (hreads o hmem)
  have hg := hgathered hfit
  have hreads : ∀ o ∈ reads, o < i.buf.length := hg.reads
  have hcopies : ∀ c ∈ copies, 0 ≤ c.len ∧ 0 ≤ c.off ∧ c.off + c.len ≤ c.cap := hg.copies
  have hreceived : received = info'.object.received.length := hg.received_eq
  have hrendered : rendered = [] := hg.rendered_eq
  have hobject : info'.object = info.object.add i.buf i.objectMem.isSome := hg.object_eq
  rw [and_iff_right hfit, ← hobject, ← parserOnePgs_iff hg.gathers]
  simp only
  generalize parserOnePgs info' i.pictureMem = shown at hdec ⊢
  by_cases hlast : isLast i.buf = true
  · rw [if_pos hlast] at hdec
    rw [imp_iff_right hlast]
    constructor
    · intro hb o ho
      have := hb.rendered
      rw [hdec] at this
      have := this o ho
      simp only at this
      omega
    · intro hin
      refine ⟨?_, ?_, ?_⟩
      all_goals rw [hdec]
      · exact hreads
      · exact hcopies
      · intro o ho
        have := hin o ho
        simp only
        omega
  · rw [if_neg hlast] at hdec
    refine iff_of_true ⟨?_, ?_, ?_⟩ fun h => absurd h hlast
    all_goals rw [hdec]
    · exact hreads
    · exact hcopies
    · rw [hrendered]
      exact fun o ho => absurd ho List.not_mem_nil

theorem inBounds_iff (h : Gathers info) : InBounds info i ↔ Sound info i := by
  unfold Sound
  by_cases h14 : i.type = 0x14
  · have hne : i.type ≠ 0x15 := by
      rw [h14]
      decide
    rw [inBounds_colors h14, imp_iff_right h14]
    exact (and_iff_left fun h15 => absurd h15 hne).symm
  by_cases h15 : i.type = 0x15
  · rw [inBounds_bitmap h h15, imp_iff_right h15]
    exact (and_iff_right fun h => absurd h h14).symm
  · have hdec : pgsDecode info i = (info, ⟨[], [], [], 0⟩) := by
      rw [pgsDecode, if_neg h14, if_neg h15]
    refine iff_of_true ⟨?_, ?_, ?_⟩ ⟨fun h => absurd h h14, fun h => absurd h h15⟩
    all_goals rw [hdec]
    · exact fun o ho => absurd ho List.not_mem_nil
    · exact fun c hc => absurd hc List.not_mem_nil
    · exact fun o ho => absurd ho List.not_mem_nil

theorem Gathers.step (h : Gathers info) (hs : Sound info i) : Gathers (pgsDecode info i).1 := by
  unfold pgsDecode
  split
  · exact h
  split
  · rename_i h15
    have hg := readBitmap_gathered h i.objectMem (hs.2 h15).1
    simp only
    split
    · exact fun b hb => absurd hb (Option.some_ne_none b).symm
    · exact hg.gathers
  · exact h

end

/-- **Segments**: all are decoded in bounds just when all are sound. -/
theorem segments_inBounds_iff (is : List Input) :
    Each InBounds pgsDecode initInfo is ↔ Each Sound pgsDecode initInfo is := by
  have hstep : ∀ info i, Gathers info →
      (InBounds info i ↔ Sound info i) ∧ (Sound info i → Gathers (pgsDecode info i).1) :=
    fun _ _ h => ⟨inBounds_iff h, h.step⟩
  exact each_iff hstep fun b hb => absurd hb (Option.some_ne_none b).symm

/-- A colour that is not whole. -/
theorem segments_not_inBounds_color :
    ¬ Each InBounds pgsDecode initInfo [⟨0x14, [0, 0, 1], none, false⟩] := by
  rintro ⟨h, -⟩
  have hlen := (inBounds_colors rfl).mp h
  exact absurd hlen (by decide)

end VendorAmlogic.Amsub.Pgs
