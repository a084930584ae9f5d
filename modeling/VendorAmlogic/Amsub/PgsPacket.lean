import VendorAmlogic.Amsub.PgsBitmap

/-!
# PGS packets

The soft demux part of `pgs_subtitle_decode` of `libsub_pgs/amsub_pgs_dec.c` and
`read_time_header`: a packet is walked segment by segment while the decoder
runs. A byte is an `unsigned char`, as on ARM, and memory is there. The arguments
of `LOGI` are left out.
-/

namespace VendorAmlogic.Amsub.Pgs

open VendorAmlogic.Lib

/-! ## Model -/

def OSD_HALF_SIZE : Nat := 1920 * 1280 / 8

def be16 (hi lo : Byte) : Nat := hi.toNat <<< 8 ||| lo.toNat

/-- The four bytes at `i`. -/
def be32 (bs : List Byte) (i : Nat) : BitVec 32 :=
  bs.getD i 0 ++ bs.getD (i + 1) 0 ++ bs.getD (i + 2) 0 ++ bs.getD (i + 3) 0

/-- What `read_time_header` finds; `cur` is where it leaves the pointer. -/
structure TimeHeader where
  type : Byte
  size : Nat
  cur : Nat
  start_time : BitVec 32
  end_time : BitVec 32

def readTimeHeader (buf : List Byte) : Option TimeHeader :=
  if buf.getD 0 0 = 0x50 ∧ buf.getD 1 0 = 0x47 then
    let size := be16 (buf.getD 11 0) (buf.getD 12 0)
    some ⟨buf.getD 10 0, size, 13 + size, be32 buf 2, be32 buf 6⟩
  else none

/-- A segment as `pgs_decode` gets it: its bytes are the `size` ones before `cur_buf`. -/
structure Handed where
  type : Byte
  size : Nat
  data : List Byte
  deriving DecidableEq, Repr

def pgsDecodeGets (buf : List Byte) : Option Handed :=
  (readTimeHeader buf).map fun h => ⟨h.type, h.size, (buf.drop (h.cur - h.size)).take h.size⟩

/-- The buffer that is made for a segment. -/
def segmentBuf (pgs_pts pgs_pts_end : BitVec 32) (type : Byte) (len : Nat) (data : List Byte) :
    List Byte :=
  [(0x50 : Byte), 0x47,
    (pgs_pts >>> 24).setWidth 8, (pgs_pts >>> 16).setWidth 8, (pgs_pts >>> 8).setWidth 8,
    pgs_pts.setWidth 8,
    (pgs_pts_end >>> 24).setWidth 8, (pgs_pts_end >>> 16).setWidth 8,
    (pgs_pts_end >>> 8).setWidth 8, pgs_pts_end.setWidth 8,
    type, BitVec.ofNat 8 (len / 256), BitVec.ofNat 8 (len % 256)] ++ data.take len

/-- The loop, with what is behind the pointer `data`: the buffers given to `pgs_decode`, and
`read_data_len` at the end. Only a segment that is decoded moves `data`. -/
def segmentLoop (pgs_pts pgs_pts_end : BitVec 32) (data_len : Int) (data : List Byte)
    (read_data_len : Int) : List (List Byte) × Int :=
  if read_data_len < data_len then
    let type := data.getD 0 0
    let len := be16 (data.getD 1 0) (data.getD 2 0)
    if read_data_len + 3 + len > data_len then ([], read_data_len + 3)
    else if pgs_pts ≠ 0 ∧ len > 0 then
      if 8 + 2 + len > OSD_HALF_SIZE * 4 then ([], read_data_len + 3)
      else
        let r := segmentLoop pgs_pts pgs_pts_end data_len (data.drop (len + 3))
          (read_data_len + 3 + len)
        (segmentBuf pgs_pts pgs_pts_end type len (data.drop 3) :: r.1, r.2)
    else segmentLoop pgs_pts pgs_pts_end data_len data (read_data_len + 3)
  else ([], read_data_len)
termination_by (data_len - read_data_len).toNat

/-- Behind the mark: fifteen bytes, and as many bytes as these say. There is no memory for a length
below zero. -/
def softDemux (tmpbuf data : List Byte) : Option (List (List Byte) × Int) :=
  let data_len := (be32 tmpbuf 3).toInt
  let pgs_pts := be32 tmpbuf 7
  let pgs_pts_end := pgs_pts + be32 tmpbuf 11
  if data_len < 0 then none
  else some (segmentLoop pgs_pts pgs_pts_end data_len (data.take data_len.toNat) 0)

/-! ## Packets -/

structure Segment where
  type : Byte
  data : List Byte
  len_le : data.length ≤ 65535

namespace Segment

def encode (s : Segment) : List Byte :=
  s.type :: BitVec.ofNat 8 (s.data.length / 256) :: BitVec.ofNat 8 (s.data.length % 256) :: s.data

def handed (s : Segment) : Handed := ⟨s.type, s.data.length, s.data⟩

end Segment

def packet (segs : List Segment) : List Byte := segs.flatMap Segment.encode

/-- The segments that are not empty. -/
def filled (segs : List Segment) : List Segment := segs.filter fun s => s.data ≠ []

/-- Each segment that is not empty is given to `pgs_decode` as it is, in order, and all bytes are
consumed. -/
def PacketRight (tmpbuf : List Byte) (segs : List Segment) : Prop :=
  ∃ r, softDemux tmpbuf (packet segs) = some r ∧
    r.1.map pgsDecodeGets = (filled segs).map (some ·.handed) ∧ r.2 = (packet segs).length

/-- After an empty segment all are empty. -/
def EmptyLast (segs : List Segment) : Prop :=
  segs.Pairwise fun s t => s.data = [] → t.data = []

/-! ## The segments of the loop -/

section

variable {pts pts_end : BitVec 32} {data_len read : Int} {data : List Byte} {s : Segment}
  {segs : List Segment}

theorem be16_length (n : Nat) (h : n ≤ 65535) :
    be16 (BitVec.ofNat 8 (n / 256)) (BitVec.ofNat 8 (n % 256)) = n := by
  unfold be16
  rw [BitVec.toNat_ofNat, Nat.mod_eq_of_lt (by omega)]
  exact ShowData.long_count n

theorem length_encode (s : Segment) : s.encode.length = s.data.length + 3 := rfl

theorem packet_cons (s : Segment) (segs : List Segment) :
    packet (s :: segs) = s.encode ++ packet segs := rfl

/-- The buffer of a segment is read back as the segment. -/
theorem pgsDecodeGets_segmentBuf (s : Segment) (rest : List Byte) :
    pgsDecodeGets (segmentBuf pts pts_end s.type s.data.length (s.data ++ rest)) =
      some s.handed := by
  rw [segmentBuf, List.take_left]
  have hsize := be16_length s.data.length s.len_le
  have hhead : ∀ bs : List Byte, readTimeHeader ([(0x50 : Byte), 0x47,
      (pts >>> 24).setWidth 8, (pts >>> 16).setWidth 8, (pts >>> 8).setWidth 8, pts.setWidth 8,
      (pts_end >>> 24).setWidth 8, (pts_end >>> 16).setWidth 8, (pts_end >>> 8).setWidth 8,
      pts_end.setWidth 8, s.type, BitVec.ofNat 8 (s.data.length / 256),
      BitVec.ofNat 8 (s.data.length % 256)] ++ bs) = some ⟨s.type,
        be16 (BitVec.ofNat 8 (s.data.length / 256)) (BitVec.ofNat 8 (s.data.length % 256)),
        13 + be16 (BitVec.ofNat 8 (s.data.length / 256)) (BitVec.ofNat 8 (s.data.length % 256)),
        _, _⟩ := fun bs => if_pos ⟨rfl, rfl⟩
  rw [pgsDecodeGets, hhead, hsize, Option.map_some, Nat.add_sub_cancel]
  congr 1
  exact congrArg (Handed.mk _ _) List.take_length

/-- An empty segment is read again and again, till the packet is over. -/
theorem segmentLoop_stuck (pts pts_end : BitVec 32)
    (hlen : be16 (data.getD 1 0) (data.getD 2 0) = 0)
    (hread : read ≤ data_len) :
    (segmentLoop pts pts_end data_len data read).1 = [] ∧
      ((segmentLoop pts pts_end data_len data read).2 = data_len ↔ 3 ∣ data_len - read) := by
  induction hn : (data_len - read).toNat using Nat.strongRecOn generalizing read with
  | ind n ih =>
    rw [segmentLoop]
    by_cases hlt : read < data_len
    · simp only [if_pos hlt, hlen]
      by_cases hend : read + 3 > data_len
      · rw [if_pos (by omega)]
        refine ⟨rfl, iff_of_false (by simp only; omega) (by omega)⟩
      · rw [if_neg (by omega), if_neg (by omega)]
        have hread' : read + 3 ≤ data_len := by omega
        obtain ⟨h1, h2⟩ := ih (data_len - (read + 3)).toNat (by omega) hread' rfl
        exact ⟨h1, h2.trans (by omega)⟩
    · rw [if_neg hlt]
      exact ⟨rfl, iff_of_true (by simp only; omega) (by omega)⟩

/-- A segment with bytes. -/
theorem segmentLoop_filled (hpts : pts ≠ 0) (hs : s.data ≠ []) (rest : List Byte)
    (hfit : read + s.encode.length ≤ data_len) :
    segmentLoop pts pts_end data_len (s.encode ++ rest) read =
      (segmentBuf pts pts_end s.type s.data.length (s.data ++ rest) ::
          (segmentLoop pts pts_end data_len rest (read + s.encode.length)).1,
        (segmentLoop pts pts_end data_len rest (read + s.encode.length)).2) := by
  have hpos : 0 < s.data.length := List.length_pos_iff.mpr hs
  have hle := s.len_le
  rw [length_encode] at hfit ⊢
  have hlen : be16 ((s.encode ++ rest).getD 1 0) ((s.encode ++ rest).getD 2 0) = s.data.length :=
    be16_length s.data.length hle
  have hdrop : (s.encode ++ rest).drop (s.data.length + 3) = rest :=
    List.drop_left' (length_encode s)
  have hbuf : OSD_HALF_SIZE * 4 = 1228800 := rfl
  rw [segmentLoop]
  simp only [hlen, hdrop]
  rw [if_pos (by omega), if_neg (by omega), if_pos ⟨hpts, hpos⟩, if_neg (by omega)]
  have hread : read + 3 + (s.data.length : Int) = read + ((s.data.length + 3 : Nat) : Int) := by
    omega
  rw [hread]
  rfl

theorem packet_empty (h : ∀ t ∈ segs, t.data = []) : (packet segs).length = 3 * segs.length := by
  induction segs with
  | nil => rfl
  | cons s segs ih =>
    rw [packet_cons, List.length_append, length_encode, h s List.mem_cons_self,
      ih fun t ht => h t (List.mem_cons_of_mem _ ht), List.length_cons, List.length_nil]
    omega

theorem filled_eq_nil_iff : filled segs = [] ↔ ∀ t ∈ segs, t.data = [] := by
  rw [filled, List.filter_eq_nil_iff]
  simp only [decide_eq_true_eq, not_not]

/-- **The walk**: it is right just when the empty segments are the last. -/
theorem segmentLoop_right_iff (hpts : pts ≠ 0) (hlen : data_len = read + (packet segs).length) :
    ((segmentLoop pts pts_end data_len (packet segs) read).1.map pgsDecodeGets =
        (filled segs).map (some ·.handed) ∧
      (segmentLoop pts pts_end data_len (packet segs) read).2 = data_len) ↔ EmptyLast segs := by
  induction segs generalizing read with
  | nil =>
    have hread : read = data_len := by
      rw [hlen]
      exact (Int.add_zero read).symm
    rw [segmentLoop, if_neg (by omega)]
    exact iff_of_true ⟨rfl, hread⟩ List.Pairwise.nil
  | cons s segs ih =>
    rw [packet_cons, List.length_append] at hlen
    rw [packet_cons, EmptyLast, List.pairwise_cons]
    by_cases hs : s.data = []
    · have hzero : be16 ((s.encode ++ packet segs).getD 1 0) ((s.encode ++ packet segs).getD 2 0) =
          0 := by
        show be16 (BitVec.ofNat 8 (s.data.length / 256)) (BitVec.ofNat 8 (s.data.length % 256)) = 0
        rw [hs]
        rfl
      obtain ⟨hnone, hend⟩ := segmentLoop_stuck pts pts_end hzero
        (show read ≤ data_len by omega)
      have hfilled : filled (s :: segs) = filled segs :=
        List.filter_cons_of_neg (by simp only [hs, ne_eq, not_true_eq_false, decide_false]; decide)
      rw [hnone, hend, hfilled, List.map_nil, eq_comm, List.map_eq_nil_iff, filled_eq_nil_iff]
      constructor
      · rintro ⟨hall, -⟩
        exact ⟨fun t ht _ => hall t ht,
          List.pairwise_of_forall_mem_list fun _ _ t ht _ => hall t ht⟩
      · rintro ⟨hall, -⟩
        have hall' : ∀ t ∈ segs, t.data = [] := fun t ht => hall t ht hs
        have hlength := packet_empty hall'
        rw [length_encode, hs, List.length_nil] at hlen
        exact ⟨hall', by omega⟩
    · have hfilled : filled (s :: segs) = s :: filled segs :=
        List.filter_cons_of_pos (decide_eq_true hs)
      rw [segmentLoop_filled hpts hs _ (by omega), List.map_cons, pgsDecodeGets_segmentBuf, hfilled,
        List.map_cons, List.cons.injEq, and_iff_right rfl]
      rw [ih (by omega)]
      exact ⟨fun h => ⟨fun t _ h0 => absurd h0 hs, h⟩, fun h => h.2⟩

end

/-- **Packets**: one that is right is of less than 2^31 bytes, and has its empty segments at the
end. -/
theorem packet_right_iff (tmpbuf : List Byte) (segs : List Segment) (hpts : be32 tmpbuf 7 ≠ 0)
    (hlen : (be32 tmpbuf 3).toNat = (packet segs).length) :
    PacketRight tmpbuf segs ↔ (packet segs).length < 2 ^ 31 ∧ EmptyLast segs := by
  have hint := BitVec.toInt_eq_toNat_cond (be32 tmpbuf 3)
  unfold PacketRight softDemux
  simp only
  by_cases hlt : (packet segs).length < 2 ^ 31
  · rw [if_pos (by omega), hlen] at hint
    rw [hint, if_neg (by omega), Int.toNat_natCast, List.take_length, and_iff_right hlt,
      ← segmentLoop_right_iff hpts (Int.zero_add _).symm]
    constructor
    · rintro ⟨r, hr, h⟩
      obtain rfl := Option.some.inj hr
      exact h
    · exact fun h => ⟨_, rfl, h⟩
  · rw [if_neg (by omega)] at hint
    have hmax := (be32 tmpbuf 3).isLt
    rw [if_pos (by omega)]
    exact iff_of_false (fun ⟨_, hr, _⟩ => Option.some_ne_none _ hr.symm) fun h => hlt h.1

/-- The fifteen bytes before a packet of seventeen bytes, with a pts of 2. -/
def exampleHead : List Byte := [0, 0, 0, 0, 0, 0, 17, 0, 0, 0, 2, 0, 0, 0, 1]

def exampleColors : Segment := ⟨0x14, [0, 0, 1, 16, 128], by decide⟩
def exampleObject : Segment := ⟨0x15, [0, 0, 0], by decide⟩
def exampleEnd : Segment := ⟨0x80, [], by decide⟩

theorem packet_right_endLast :
    PacketRight exampleHead [exampleColors, exampleObject, exampleEnd] :=
  (packet_right_iff exampleHead _ (by decide) (by decide)).mpr ⟨by decide, by
    unfold EmptyLast
    decide⟩

/-- An end segment before the others. -/
theorem packet_not_right_endFirst :
    ¬ PacketRight exampleHead [exampleEnd, exampleColors, exampleObject] := by
  rintro ⟨r, hr, hhanded, -⟩
  have hread : be16 ((packet [exampleEnd, exampleColors, exampleObject]).getD 1 0)
      ((packet [exampleEnd, exampleColors, exampleObject]).getD 2 0) = 0 := by decide
  obtain ⟨hnone, -⟩ := segmentLoop_stuck (be32 exampleHead 7)
    (be32 exampleHead 7 + be32 exampleHead 11) hread (show (0 : Int) ≤ 17 by decide)
  obtain rfl := Option.some.inj hr
  have hnone' := congrArg (List.map pgsDecodeGets) hnone
  exact absurd (hhanded.symm.trans hnone') (by decide)

end VendorAmlogic.Amsub.Pgs
