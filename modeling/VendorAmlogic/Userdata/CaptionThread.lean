import VendorAmlogic.Userdata.MpegStream
import VendorAmlogic.Userdata.H264Stream

/-!
# The thread that reads the captions

`aml_userdata_thread` of `am_userdata/aml/aml.c` from its start. What the first read
brings is thrown away, for the driver is asked to flush what it has. The first bytes
of the next one tell the format, for good, and from then on the reads go to the
extractor of that format.
-/

namespace VendorAmlogic.Userdata.Caption

open VendorAmlogic.Lib

/-- `enum user_data_type`, without `INVALID_TYPE`. -/
inductive UserDataType where
  | mpeg
  | h264
  | directv
  | avs
  deriving DecidableEq

/-- The comparisons of some bytes of `p`, up to the first that fails. There is no answer when one is
about a byte behind the end of `p`. -/
def bytesAre (p : List Byte) : List (Nat × Byte) → Option Bool
  | [] => some true
  | (i, v) :: cmps => do
    if (← p[i]?) = v then bytesAre p cmps else some false

/-- What `aml_check_userdata_format` finds in `tmp_buf`. -/
def dataType (tmpBuf : List Byte) : Option UserDataType := do
  if ← bytesAre tmpBuf [(0, 0xb5), (3, 0x47), (4, 0x41), (5, 0x39), (6, 0x34)] then
    return .h264
  else if ← bytesAre tmpBuf [(0, 0xb5), (1, 0x00), (2, 0x2f)] then
    return .directv
  else if ← bytesAre tmpBuf [(0, 0x47), (1, 0x41), (2, 0x39), (3, 0x34)] then
    return .avs
  else
    return .mpeg

/-- `aml_check_userdata_format`, with a byte or more in `buf`. -/
def checkUserdataFormat (buf : List Byte) : Option UserDataType := dataType (H264.swapData buf)

/-- What the thread hands on to be put into order: a package of an MPEG stream, or a payload of one of
the other formats. -/
inductive Block where
  | mpeg (pkg : Mpeg.Package)
  | record (payload : List Byte)

/-- The variables of `aml_userdata_thread`; without a format, `ud_format` is `INVALID_TYPE`. -/
structure Thread where
  flush : Bool
  udFormat : Option UserDataType
  left : List Byte
  pheader : Mpeg.UdHeader

def threadStart : Thread := ⟨false, none, [], Mpeg.udHeader []⟩

/-- A read in a format other than MPEG. -/
def readRecords (t : Thread) (f : H264.Format) (read : List Byte) : Thread × List Block :=
  let r := H264.readStep f t.left read
  ({ t with left := r.1 }, r.2.map .record)

/-- A read with the format known. -/
def readBlocks (t : Thread) (read : List Byte) : UserDataType → Thread × List Block
  | .mpeg =>
    let r := Mpeg.readStep ⟨t.left, t.pheader⟩ read
    ({ t with left := r.1.left, pheader := r.1.pheader }, r.2.map .mpeg)
  | .h264 => readRecords t .h264 read
  | .directv => readRecords t .directv read
  | .avs => readRecords t .avs read

/-- A round of the loop of `aml_userdata_thread` in which something can be read. Once the format was
looked for behind the end of what was read, nothing more is known of the thread. -/
def threadStep : Option Thread → List Byte → Option Thread × List Block
  | none, _ => (none, [])
  | some t, read =>
    if !t.flush then (some { t with flush := true }, [])
    else if read = [] then (some t, [])
    else
      match t.udFormat with
      | some f => (readBlocks t read f).map some id
      | none =>
        match checkUserdataFormat read with
        | some f => (readBlocks { t with udFormat := some f } read f).map some id
        | none => (none, [])

/-- The bytes at the front of the buffer, in front of what the next read brings. -/
def kept (t : Option Thread) : List Byte := t.elim [] Thread.left

/-- `read(fd, buf + left, sizeof(buf) - left)` gives no more than it is asked for. -/
def ReadFits (t : Option Thread) (read : List Byte) : Prop :=
  (kept t).length + read.length ≤ Mpeg.bufSize

/-! ## The format -/

theorem bytesAre_append {p : List Byte} (x : List Byte) {cmps : List (Nat × Byte)}
    (h : ∀ c ∈ cmps, c.1 < p.length) : bytesAre (p ++ x) cmps = bytesAre p cmps := by
  induction cmps with
  | nil => rfl
  | cons c cmps ih =>
    obtain ⟨hc, hcmps⟩ := List.forall_mem_cons.mp h
    rw [bytesAre, List.getElem?_append_left hc, ih hcmps, bytesAre]

/-- The first eight bytes tell the format. -/
theorem checkUserdataFormat_append {d : List Byte} (h : d.length = 8) (x : List Byte) :
    checkUserdataFormat (d ++ x) = dataType d.reverse := by
  have hlen : d.reverse.length = 8 := by rw [List.length_reverse, h]
  rw [checkUserdataFormat, H264.swapData_block h, dataType, dataType, bytesAre_append _ (by simp [hlen]),
    bytesAre_append _ (by simp [hlen]), bytesAre_append _ (by simp [hlen])]

/-! ## A stream in the format MPEG -/

/-- The thread behind its first read, with no format yet. -/
def flushed : Option Thread := some { threadStart with flush := true }

/-- The thread once the format is MPEG. -/
def mpegThread (t : Mpeg.Thread) : Option Thread := some ⟨true, some .mpeg, t.left, t.pheader⟩

/-- The first bytes that are read tell MPEG. -/
def ShowsMpeg (reads : List (List Byte)) : Prop :=
  ∀ read ∈ reads.find? (· ≠ []), checkUserdataFormat read = some .mpeg

theorem showsMpeg_cons {read : List Byte} {reads : List (List Byte)} (hne : read ≠ []) :
    ShowsMpeg (read :: reads) ↔ checkUserdataFormat read = some .mpeg := by
  rw [ShowsMpeg, List.find?_cons_of_pos (by simpa using hne)]
  exact ⟨fun h => h read rfl, fun h _ heq => Option.some.inj heq ▸ h⟩

theorem threadStep_mpeg (t : Mpeg.Thread) (read : List Byte) :
    threadStep (mpegThread t) read =
      (mpegThread (Mpeg.readStep t read).1, (Mpeg.readStep t read).2.map .mpeg) := by
  by_cases hnil : read = []
  · subst hnil
    rfl
  · simp only [threadStep, mpegThread, Bool.not_true, Bool.false_eq_true, if_false, if_neg hnil]
    rfl

theorem run_mpegThread (t : Mpeg.Thread) (reads : List (List Byte)) :
    (run threadStep (mpegThread t) reads).2 = (run Mpeg.readStep t reads).2.map (List.map .mpeg) := by
  induction reads generalizing t with
  | nil => rfl
  | cons read reads ih =>
    rw [run_cons, run_cons, threadStep_mpeg, List.map_cons]
    exact congrArg _ (ih _)

theorem each_mpegThread (t : Mpeg.Thread) {reads : List (List Byte)}
    (h : Each ReadFits threadStep (mpegThread t) reads) : Each Mpeg.Fits Mpeg.readStep t reads := by
  induction reads generalizing t with
  | nil => trivial
  | cons read reads ih =>
    rw [each_cons, threadStep_mpeg] at h
    exact ⟨h.1, ih _ h.2⟩

/-- The first bytes are handled as with the format known before. -/
theorem threadStep_flushed {read : List Byte} (hne : read ≠ [])
    (h : checkUserdataFormat read = some .mpeg) :
    threadStep flushed read = threadStep (mpegThread Mpeg.threadStart) read := by
  simp only [threadStep, flushed, threadStart, mpegThread, Bool.not_true, Bool.false_eq_true, if_false,
    if_neg hne, h]
  rfl

/-- From its second read on the thread is the one that only knows MPEG. -/
theorem run_flushed {reads : List (List Byte)} (h : ShowsMpeg reads)
    (hfit : Each ReadFits threadStep flushed reads) :
    (run threadStep flushed reads).2 =
        (run Mpeg.readStep Mpeg.threadStart reads).2.map (List.map .mpeg) ∧
      Each Mpeg.Fits Mpeg.readStep Mpeg.threadStart reads := by
  induction reads with
  | nil => exact ⟨rfl, trivial⟩
  | cons read reads ih =>
    by_cases hnil : read = []
    · -- nothing is read, and nothing changes
      subst hnil
      obtain ⟨hrun, heach⟩ := ih h hfit.2
      exact ⟨congrArg ([] :: ·) hrun, hfit.1, heach⟩
    · have hstep := threadStep_flushed hnil ((showsMpeg_cons hnil).mp h)
      have heach : Each ReadFits threadStep (mpegThread Mpeg.threadStart) (read :: reads) := by
        refine ⟨hfit.1, ?_⟩
        rw [← hstep]
        exact hfit.2
      refine ⟨?_, each_mpegThread _ heach⟩
      rw [run_cons, hstep, ← run_cons]
      exact run_mpegThread _ _

/-- The first read is lost; what the others bring are the packages. -/
theorem flatten_run {first : List Byte} {reads : List (List Byte)} (h : ShowsMpeg reads)
    (hfit : Each ReadFits threadStep (some threadStart) (first :: reads)) :
    (run threadStep (some threadStart) (first :: reads)).2.flatten =
        (run Mpeg.readStep Mpeg.threadStart reads).2.flatten.map .mpeg ∧
      Each Mpeg.Fits Mpeg.readStep Mpeg.threadStart reads := by
  obtain ⟨hrun, heach⟩ := run_flushed h hfit.2
  refine ⟨?_, heach⟩
  calc (run threadStep (some threadStart) (first :: reads)).2.flatten
      = (run threadStep flushed reads).2.flatten := rfl
    _ = _ := by rw [hrun, ← List.map_flatten]

/-- **MPEG-2 captions do not depend on the reads.** Behind the first read, which is lost: in a stream
whose first bytes tell MPEG, whose headers are at whole words and at most 240 bytes apart, every way of
reading gives the same packages, one for each header that has a next one, with the bytes between the
two. -/
theorem captions_of_stream {s g : List Byte} {bs : List (List Byte × List Byte)}
    (hs : Mpeg.Stream s g bs) (h4g : (∃ i, Mpeg.HeaderAt s i) → 4 ∣ g.length)
    (h4 : ∀ b ∈ bs, 4 ∣ b.2.length) {first first' : List Byte} {reads reads' : List (List Byte)}
    (hr : reads.flatten = s) (hr' : reads'.flatten = s) (hm : ShowsMpeg reads) (hm' : ShowsMpeg reads')
    (hfit : Each ReadFits threadStep (some threadStart) (first :: reads))
    (hfit' : Each ReadFits threadStep (some threadStart) (first' :: reads')) :
    ∃ ps, List.Forall₂ Mpeg.Passed bs ps ∧
      (run threadStep (some threadStart) (first :: reads)).2.flatten = ps.map .mpeg ∧
      (run threadStep (some threadStart) (first' :: reads')).2.flatten = ps.map .mpeg := by
  obtain ⟨hflat, heach⟩ := flatten_run hm hfit
  obtain ⟨hflat', heach'⟩ := flatten_run hm' hfit'
  obtain ⟨ps, hall, hps, hps'⟩ := Mpeg.packages_of_stream hs h4g h4 hr hr' heach heach'
  exact ⟨ps, hall, hflat.trans (congrArg _ hps), hflat'.trans (congrArg _ hps')⟩

/-! ## Streams that fit the buffer -/

theorem length_readRecords (t : Thread) (f : H264.Format) (read : List Byte) :
    (readRecords t f read).1.left.length ≤ t.left.length + read.length := by
  unfold readRecords H264.readStep
  split
  · exact Nat.le_add_right _ _
  · dsimp only
    rw [H264.length_swapData]
    refine (H264.length_scan_le _ _).trans (Nat.le_of_eq ?_)
    rw [H264.length_swapData, List.length_append]

theorem length_readBlocks (t : Thread) (read : List Byte) (f : UserDataType) :
    (readBlocks t read f).1.left.length ≤ t.left.length + read.length := by
  cases f with
  | mpeg => exact Mpeg.length_readStep_le ⟨t.left, t.pheader⟩ read
  | h264 => exact length_readRecords t .h264 read
  | directv => exact length_readRecords t .directv read
  | avs => exact length_readRecords t .avs read

theorem length_threadStep (t : Option Thread) (read : List Byte) :
    (kept (threadStep t read).1).length ≤ (kept t).length + read.length := by
  fun_cases threadStep t read with
  | case1 => exact Nat.zero_le _
  | case2 t hflush => exact Nat.le_add_right _ _
  | case3 t hflush => exact Nat.le_add_right _ _
  | case4 t hflush hnil f => exact length_readBlocks t read _
  | case5 t hflush hnil hf f => exact length_readBlocks _ read _
  | case6 => exact Nat.zero_le _

/-- What the buffer holds can be read in any way. -/
theorem each_readFits {reads : List (List Byte)} (h : reads.flatten.length ≤ Mpeg.bufSize) :
    Each ReadFits threadStep (some threadStart) reads := by
  rw [List.length_flatten] at h
  refine each_of_sum (fun t => (kept t).length) List.length (P := (· ≤ Mpeg.bufSize))
    length_threadStep fun n hn => hn.trans ?_
  rwa [show (kept (some threadStart)).length = 0 from rfl, Nat.zero_add]

theorem checkUserdataFormat_oneHeader (x : List Byte) :
    checkUserdataFormat (Mpeg.oneHeader ++ x) = some .mpeg := by
  rw [show Mpeg.oneHeader = Mpeg.oneHeader.take 8 ++ Mpeg.oneHeader.drop 8 from rfl, List.append_assoc]
  exact checkUserdataFormat_append rfl _

theorem stream_threeHeaders :
    Mpeg.Stream (Mpeg.threeHeaders [1, 2, 3, 4]) []
      [(Mpeg.oneHeader, [1, 2, 3, 4]), (Mpeg.oneHeader, [1, 2, 3, 4])] :=
  Mpeg.stream_threeHeaders (by decide) (by unfold Mpeg.HeaderAt; decide)
    (by unfold Mpeg.HeaderAt; decide)

/-- Two packages: in one read behind the one that is lost, or in two that cut the first header. -/
theorem captions_threeHeaders :
    ∃ ps, List.Forall₂ Mpeg.Passed
        [(Mpeg.oneHeader, [1, 2, 3, 4]), (Mpeg.oneHeader, [1, 2, 3, 4])] ps ∧
      (run threadStep (some threadStart) [[0xb5], Mpeg.threeHeaders [1, 2, 3, 4]]).2.flatten =
        ps.map .mpeg ∧
      (run threadStep (some threadStart) [[], (Mpeg.threeHeaders [1, 2, 3, 4]).take 10,
        (Mpeg.threeHeaders [1, 2, 3, 4]).drop 10]).2.flatten = ps.map .mpeg :=
  captions_of_stream stream_threeHeaders (fun _ => dvd_zero 4) (by decide) rfl rfl
    ((showsMpeg_cons (by decide)).mpr (checkUserdataFormat_oneHeader _))
    ((showsMpeg_cons (by decide)).mpr (checkUserdataFormat_append (d := Mpeg.oneHeader.take 8) rfl [0, 0]))
    (each_readFits (by decide)) (each_readFits (by decide))

/-! ## What is lost -/

/-- The stream is delivered. -/
def Delivers (reads : List (List Byte)) (bs : List (List Byte × List Byte)) : Prop :=
  ∃ ps, List.Forall₂ Mpeg.Passed bs ps ∧
    (run threadStep (some threadStart) reads).2.flatten = ps.map .mpeg

/-- A header with index `0x3934` and offset `0x4741`. -/
def avsHeader : List Byte :=
  [3, 0, 0, 4, 0x34, 0x39, 0x41, 0x47, 0, 0, 0, 3, 0x34, 0x39, 0x41, 0x47]

theorem headerAt_avsHeader (x : List Byte) : Mpeg.HeaderAt (avsHeader ++ x) 0 := by
  refine ⟨?_, ?_⟩
  · rw [List.length_append]
    exact Nat.le_add_right _ _
  · rw [List.drop_zero, Mpeg.isCaption_append (by decide)]
    rfl

theorem stream_avsHeader :
    Mpeg.Stream (avsHeader ++ ([1, 2, 3, 4] ++ Mpeg.oneHeader)) [] [(avsHeader, [1, 2, 3, 4])] :=
  ⟨fun _ hi => absurd hi (Nat.not_lt_zero _), .inr ⟨_, rfl,
    .block rfl (headerAt_avsHeader _) (by decide) (by unfold Mpeg.HeaderAt; decide)
      Mpeg.blocks_oneHeader⟩⟩

/-- One read is lost as a whole. -/
theorem not_delivers_oneRead (first : List Byte) {bs : List (List Byte × List Byte)} (hne : bs ≠ []) :
    ¬ Delivers [first] bs := by
  rintro ⟨ps, hall, hrun⟩
  cases List.map_eq_nil_iff.mp hrun.symm
  cases hall
  exact hne rfl

/-- Where the first bytes look like AVS, no package is taken. -/
theorem not_delivers_avs (first : List Byte) {read : List Byte}
    {bs : List (List Byte × List Byte)} (hread : read ≠ []) (hne : bs ≠ [])
    (h : checkUserdataFormat read = some .avs) : ¬ Delivers [first, read] bs := by
  rintro ⟨ps, hall, hrun⟩
  have hstep : (threadStep flushed read).2 =
      (H264.readStep .avs [] read).2.map Block.record := by
    simp only [threadStep, flushed, threadStart, Bool.not_true, Bool.false_eq_true, if_false,
      if_neg hread, h]
    rfl
  have hone : (run threadStep (some threadStart) [first, read]).2.flatten =
      (threadStep flushed read).2 := List.append_nil _
  rw [hone, hstep] at hrun
  cases hall with
  | nil => exact hne rfl
  | @cons _ p _ ps _ _ =>
    have hmem : Block.mpeg p ∈ (p :: ps).map Block.mpeg := List.mem_cons_self
    rw [← hrun] at hmem
    obtain ⟨_, -, heq⟩ := List.mem_map.mp hmem
    exact nomatch heq

/-- A stream in one read; one that looks like AVS; and one with two bytes behind each header, where the
second one is not at a whole word and only one package is taken. -/
theorem not_delivers :
    (Mpeg.Stream (Mpeg.threeHeaders [1, 2, 3, 4]) []
        [(Mpeg.oneHeader, [1, 2, 3, 4]), (Mpeg.oneHeader, [1, 2, 3, 4])] ∧
      Each ReadFits threadStep (some threadStart) [Mpeg.threeHeaders [1, 2, 3, 4]] ∧
      ¬ Delivers [Mpeg.threeHeaders [1, 2, 3, 4]]
        [(Mpeg.oneHeader, [1, 2, 3, 4]), (Mpeg.oneHeader, [1, 2, 3, 4])]) ∧
    (Mpeg.Stream (avsHeader ++ ([1, 2, 3, 4] ++ Mpeg.oneHeader)) [] [(avsHeader, [1, 2, 3, 4])] ∧
      Each ReadFits threadStep (some threadStart)
        [[0], avsHeader ++ ([1, 2, 3, 4] ++ Mpeg.oneHeader)] ∧
      ¬ Delivers [[0], avsHeader ++ ([1, 2, 3, 4] ++ Mpeg.oneHeader)] [(avsHeader, [1, 2, 3, 4])]) ∧
    (Mpeg.Stream (Mpeg.threeHeaders [0, 0]) [] [(Mpeg.oneHeader, [0, 0]), (Mpeg.oneHeader, [0, 0])] ∧
      Each ReadFits threadStep (some threadStart) [[0], Mpeg.threeHeaders [0, 0]] ∧
      ¬ Delivers [[0], Mpeg.threeHeaders [0, 0]] [(Mpeg.oneHeader, [0, 0]), (Mpeg.oneHeader, [0, 0])]) := by
  have hfit : Each ReadFits threadStep (some threadStart) [[0], Mpeg.threeHeaders [0, 0]] :=
    each_readFits (by decide)
  refine ⟨⟨stream_threeHeaders, each_readFits (by decide), not_delivers_oneRead _ nofun⟩,
    ⟨stream_avsHeader, each_readFits (by decide), not_delivers_avs _ nofun nofun ?_⟩,
    Mpeg.stream_threeHeaders (by decide) (by unfold Mpeg.HeaderAt; decide)
      (by unfold Mpeg.HeaderAt; decide), hfit, ?_⟩
  · exact checkUserdataFormat_append (d := avsHeader.take 8) rfl _
  · rintro ⟨ps, hall, hrun⟩
    obtain ⟨hflat, heach⟩ :=
      flatten_run ((showsMpeg_cons (by decide)).mpr (checkUserdataFormat_oneHeader _)) hfit
    have hlen := congrArg List.length (hflat.symm.trans hrun)
    rw [List.length_map, List.length_map, Mpeg.length_oddPackages rfl heach, ← hall.length_eq] at hlen
    exact absurd hlen (by decide)

end VendorAmlogic.Userdata.Caption
