import VendorAmlogic.Ts.RoundTrip

/-!
# The program tables of the packer

The sections of the program association and of the program map, as a reader
of tables finds them: the checksum, the lengths, and the entries of the
tracks.
-/

namespace VendorAmlogic.Ts

open VendorAmlogic.Lib

/-! ## The checksum -/

theorem and_top_ne_zero (x : BitVec 32) : x &&& 0x80000000 ≠ 0 ↔ x.msb = true := by
  have htop : (0x80000000 : BitVec 32) = BitVec.twoPow 32 31 := by decide
  rw [htop, BitVec.and_twoPow, BitVec.msb_eq_getLsbD_last]
  cases x.getLsbD 31 <;> decide

/-- An entry of the table is eight steps of the division. -/
theorem crcTable_eq (i : Nat) :
    crcTable i = Crc.shifts 0x04C11DB7 8 (BitVec.ofNat 32 i <<< 24) := by
  have hstep (x : BitVec 32) : (x <<< 1) ^^^ (if x &&& 0x80000000 ≠ 0 then 0x04C11DB7 else 0) =
      Crc.shift 0x04C11DB7 x := by
    rw [Crc.shift]
    simp only [and_top_ne_zero]
  simp only [crcTable, hstep, Crc.shifts]

/-- The checksum of the source is that of CRC-32/MPEG-2. -/
theorem crc32_eq (data : List Byte) : crc32 data = crcMpeg2 data := by
  have hstep : (fun (crc : BitVec 32) (p : Byte) =>
      (crc <<< 8) ^^^ crcTable (((crc >>> 24) ^^^ p.setWidth 32) &&& 0xff).toNat) =
      Crc.update 0x04C11DB7 := by
    funext crc p
    have hlow (x : BitVec 32) : (x &&& 0xff) <<< 24 = x <<< 24 := by
      apply BitVec.eq_of_getLsbD_eq
      intro i hi
      have hff : (0xff : BitVec 32).getLsbD (i - 24) = decide (i - 24 < 8) := by
        have : i - 24 < 8 := by omega
        interval_cases i - 24 <;> rfl
      simp only [BitVec.getLsbD_shiftLeft, BitVec.getLsbD_and, hff]
      simp [show i - 24 < 8 by omega]
    rw [crcTable_eq, BitVec.ofNat_toNat, BitVec.setWidth_eq, hlow, Crc.update_eq]
  rw [crc32, crcMpeg2, Crc.remainder, hstep]

/-- A section followed by its checksum. -/
theorem crcMpeg2_append (data : List Byte) : crcMpeg2 (data ++ Crc.toBytes (crc32 data)) = 0 := by
  rw [crc32_eq]
  exact Crc.remainder_append_self _ _

/-! ## Sections -/

theorem length12_bytes {bits : Byte} (hbits : bits &&& 0x0f = 0#8) {n : Nat} (h : n < 4096) :
    length12 (highByte bits n) (lowByte n) = n := by
  rw [length12, highByte_and (k := 4) rfl hbits (by omega), lowByte_toNat, Nat.div_add_mod']

theorem pid13_bytes {pid : Nat} (h : pid < 8192) :
    pid13 (highByte 0xe0 pid) (lowByte pid) = pid := by
  rw [pid13, highByte_and (k := 5) rfl rfl (by omega), lowByte_toNat, Nat.div_add_mod']

/-- A section whose length field counts the checksum too is split off the payload whole. -/
theorem splitSection_sectionPayload {t l1 l0 : Byte} {rest : List Byte}
    (h : length12 l1 l0 = rest.length + 4) :
    splitSection (sectionPayload (t :: l1 :: l0 :: rest)) =
      some ((t :: l1 :: l0 :: rest) ++ Crc.toBytes (crc32 (t :: l1 :: l0 :: rest)),
        List.replicate (176 - rest.length) 0xff) := by
  set crc := Crc.toBytes (crc32 (t :: l1 :: l0 :: rest)) with hcrc
  have hlen : (rest ++ crc).length = length12 l1 l0 := by
    rw [List.length_append, h]
    rfl
  have hsplit : sectionPayload (t :: l1 :: l0 :: rest) =
      (0x00 : Byte) :: t :: l1 :: l0 :: (rest ++ crc ++ List.replicate (176 - rest.length) 0xff) := by
    have hfill : 179 - (t :: l1 :: l0 :: rest).length = 176 - rest.length := by
      simp only [List.length_cons]
      omega
    rw [sectionPayload, ← hcrc, hfill]
    simp only [List.cons_append]
  rw [hsplit, splitSection]
  change (if length12 l1 l0 ≤ (rest ++ crc ++ List.replicate (176 - rest.length) 0xff).length then _
    else none) = _
  rw [if_pos (by rw [List.length_append, hlen]; omega), List.take_left' hlen, List.drop_left' hlen]
  rfl

theorem parsePat_patSection : parsePat (patSection ++ Crc.toBytes (crc32 patSection)) =
    some [(1, kPidPmt)] := rfl

/-- The program association is as it should be. -/
theorem holdsTable_pat : HoldsTable parsePat (· = [(1, kPidPmt)]) (sectionPayload patSection) := by
  have hlen : length12 0xb0 0x0d = 9 + 4 := by decide
  exact ⟨_, _, _, splitSection_sectionPayload hlen, fun _ hb => List.eq_of_mem_replicate hb,
    crcMpeg2_append patSection, parsePat_patSection, rfl⟩

/-- The section of a program map: its length is right, and its entries are read up to the
checksum. -/
theorem splitSection_pmtSection {es : List Byte} (hes : es.length ≤ 200) :
    ∃ filling, splitSection (sectionPayload (pmtSection es)) =
        some (pmtSection es ++ Crc.toBytes (crc32 (pmtSection es)), filling) ∧
      ∀ b ∈ filling, b = 0xff := by
  have hlen : length12 (highByte 0xb0 ((pmtHead ++ es).length + 4))
      (lowByte ((pmtHead ++ es).length + 4)) = (pmtHead ++ es).length + 4 := by
    have hsum : (pmtHead ++ es).length = 9 + es.length := List.length_append
    exact length12_bytes (by decide) (by omega)
  exact ⟨_, splitSection_sectionPayload hlen, fun _ hb => List.eq_of_mem_replicate hb⟩

theorem parsePmt_pmtSection (es : List Byte) (crc : BitVec 32) :
    parsePmt (pmtSection es ++ Crc.toBytes crc) =
      (parseEntries es.length es).map fun entries => ⟨kPidPcr, [], entries⟩ := by
  have hbody : (es ++ Crc.toBytes crc).take ((es ++ Crc.toBytes crc).length - 4) = es := by
    rw [List.length_append]
    exact List.take_left' rfl
  have hfour : 4 ≤ (es ++ Crc.toBytes crc).length := by
    rw [List.length_append]
    exact Nat.le_add_left ..
  have hpmt : pmtSection es ++ Crc.toBytes crc =
      (0x02 : Byte) :: highByte 0xb0 ((pmtHead ++ es).length + 4) ::
        lowByte ((pmtHead ++ es).length + 4) :: 0x00 :: 0x01 :: 0xc3 :: 0x00 :: 0x00 ::
        highByte 0xe0 kPidPcr :: lowByte kPidPcr :: highByte 0xf0 0 :: lowByte 0 ::
        (es ++ Crc.toBytes crc) := rfl
  have hinfo : length12 (highByte 0xf0 0) (lowByte 0) = 0 := length12_bytes (by decide) (by decide)
  rw [hpmt, parsePmt, hbody, hinfo, pid13_bytes (by decide), if_pos ⟨rfl, hfour, Nat.zero_le _⟩,
    List.take_zero, List.drop_zero, parseDescriptors, Option.bind_some]

/-- An entry before others. -/
theorem parseEntries_esEntry {fuel pid : Nat} {streamType : Byte} {ds rest : List Byte}
    (hpid : pid < 8192) (hds : ds.length < 4096) :
    parseEntries (fuel + 1) (esEntry streamType pid ds.length ++ (ds ++ rest)) =
      (parseDescriptors ds.length ds).bind fun descriptors =>
        (parseEntries fuel rest).map (⟨streamType, pid, descriptors⟩ :: ·) := by
  have happend : esEntry streamType pid ds.length ++ (ds ++ rest) =
      streamType :: highByte 0xe0 pid :: lowByte pid :: highByte 0xf0 ds.length ::
        lowByte ds.length :: (ds ++ rest) := rfl
  rw [happend, parseEntries, length12_bytes (by decide) hds, pid13_bytes hpid,
    if_pos (by rw [List.length_append]; exact Nat.le_add_right ..), List.take_left, List.drop_left]

/-! ## Tracks -/

/-- The tracks with their stream types and PIDs. -/
def Config.trackList (cfg : Config) : List (Byte × Nat) :=
  (0x1b, kPidVideo) ::
    if cfg.hasAudio then [(if cfg.isPcmAudio then 0x83 else 0x0f, kPidAudio)] else []

/-- The entries list the tracks. -/
def Config.Lists (cfg : Config) (pmt : Pmt) : Prop :=
  pmt.entries.map (fun e => (e.streamType, e.pid)) = cfg.trackList

/-- The audio track is not PCM, so that it has no descriptor. -/
def Config.HasAac (cfg : Config) : Prop := cfg.hasAudio = true ∧ cfg.isPcmAudio = false

/-- The entry of the audio track. -/
def Config.audioEntry (cfg : Config) : List Byte :=
  if cfg.hasAudio then
    esEntry (if cfg.isPcmAudio then 0x83 else 0x0f) kPidAudio 4 ++
      if cfg.isPcmAudio then lpcmDescriptor else []
  else []

theorem Config.tracks_eq (cfg : Config) :
    cfg.tracks = esEntry 0x1b kPidVideo 10 ++
      (cfg.avcDescriptor ++ hrdDescriptor ++ cfg.audioEntry) := by
  rw [tracks, descriptors, audioEntry]
  cases ha : cfg.hasAudio <;> cases hm : cfg.isPcmAudio <;> simp [esEntries, ha, hm]

/-- The descriptors of the video track. -/
theorem parseDescriptors_video {cfg : Config} (hcsd : cfg.CsdOk) :
    parseDescriptors 10 (cfg.avcDescriptor ++ hrdDescriptor) =
      some [(40, cfg.profile ++ [0x3f]), (42, [0x7e, 0x1f])] := by
  have havc : cfg.avcDescriptor ++ hrdDescriptor =
      40 :: 4 :: ((cfg.profile ++ [0x3f]) ++ hrdDescriptor) := rfl
  have hlen : (4 : Byte).toNat = (cfg.profile ++ [0x3f]).length := by
    rw [List.length_append, cfg.profile_length hcsd]
    rfl
  rw [havc, parseDescriptors_cons hlen]
  rfl

/-- The entry of an audio track that is not PCM claims four bytes that are not there. -/
theorem parseEntries_audioEntry (cfg : Config) (fuel : Nat) :
    (cfg.HasAac → parseEntries (fuel + 1) cfg.audioEntry = none) ∧
      (¬ cfg.HasAac → ∃ entries, parseEntries (fuel + 1) cfg.audioEntry = some entries ∧
        (0x1b, kPidVideo) :: entries.map (fun e => (e.streamType, e.pid)) = cfg.trackList) := by
  obtain ⟨hasAudio, isPcmAudio, csd⟩ := cfg
  cases hasAudio with
  | false => exact ⟨fun h => absurd h.1 Bool.false_ne_true, fun _ => ⟨[], rfl, rfl⟩⟩
  | true =>
    cases isPcmAudio with
    | false =>
      refine ⟨fun _ => ?_, fun h => absurd ⟨rfl, rfl⟩ h⟩
      have hentry : Config.audioEntry ⟨true, false, csd⟩ =
          0x0f :: highByte 0xe0 kPidAudio :: lowByte kPidAudio :: highByte 0xf0 4 :: lowByte 4 :: [] :=
        rfl
      rw [hentry, parseEntries, length12_bytes (by decide) (by decide)]
      rfl
    | true =>
      refine ⟨fun h => absurd h.2.symm Bool.false_ne_true, fun _ => ?_⟩
      have hentry : Config.audioEntry ⟨true, true, csd⟩ =
          esEntry 0x83 kPidAudio lpcmDescriptor.length ++ (lpcmDescriptor ++ []) := rfl
      have hlpcm : parseDescriptors lpcmDescriptor.length lpcmDescriptor =
          some [(0x83, [0x46, 0x2f])] := rfl
      refine ⟨[⟨0x83, kPidAudio, [(0x83, [0x46, 0x2f])]⟩], ?_, rfl⟩
      rw [hentry, parseEntries_esEntry (by decide) (by decide), hlpcm, Option.bind_some, parseEntries]
      rfl

/-- The entries can be read unless the audio track is not PCM. -/
theorem parseEntries_tracks {cfg : Config} (hcsd : cfg.CsdOk) :
    (cfg.HasAac → parseEntries cfg.tracks.length cfg.tracks = none) ∧
      (¬ cfg.HasAac → ∃ entries, parseEntries cfg.tracks.length cfg.tracks = some entries ∧
        entries.map (fun e => (e.streamType, e.pid)) = cfg.trackList) := by
  have hds : (cfg.avcDescriptor ++ hrdDescriptor).length = 10 := by
    simp [Config.avcDescriptor, hrdDescriptor, cfg.profile_length hcsd]
  obtain ⟨fuel, hfuel⟩ : ∃ fuel, cfg.tracks.length = fuel + 1 + 1 :=
    ⟨13 + cfg.audioEntry.length, by
      rw [cfg.tracks_eq, List.length_append, List.length_append, hds]
      simp [esEntry]
      omega⟩
  have hvideo : parseEntries (fuel + 1 + 1) cfg.tracks =
      (parseEntries (fuel + 1) cfg.audioEntry).map
        (⟨0x1b, kPidVideo, [(40, cfg.profile ++ [0x3f]), (42, [0x7e, 0x1f])]⟩ :: ·) := by
    have hentry : parseEntries (fuel + 1 + 1) (esEntry 0x1b kPidVideo
        (cfg.avcDescriptor ++ hrdDescriptor).length ++
          (cfg.avcDescriptor ++ hrdDescriptor ++ cfg.audioEntry)) = _ :=
      parseEntries_esEntry (by decide) (by omega)
    rw [hds, parseDescriptors_video hcsd, Option.bind_some] at hentry
    rw [cfg.tracks_eq, hentry]
  obtain ⟨haac, hother⟩ := parseEntries_audioEntry cfg fuel
  rw [hfuel, hvideo]
  constructor
  · intro h
    rw [haac h]
    rfl
  · intro h
    obtain ⟨entries, hentries, hlist⟩ := hother h
    refine ⟨⟨0x1b, kPidVideo, [(40, cfg.profile ++ [0x3f]), (42, [0x7e, 0x1f])]⟩ :: entries, ?_, hlist⟩
    rw [hentries]
    rfl

/-- The program map is as it should be exactly if its audio track is not AAC. -/
theorem holdsTable_pmt_iff {cfg : Config} (hcsd : cfg.CsdOk) :
    HoldsTable parsePmt cfg.Lists (sectionPayload (pmtSection cfg.tracks)) ↔ ¬ cfg.HasAac := by
  obtain ⟨filling, hsplit, hfill⟩ :=
    splitSection_pmtSection (Nat.le_trans (esEntries_spec hcsd).2 (by omega))
  obtain ⟨haac, hother⟩ := parseEntries_tracks hcsd
  constructor
  · rintro ⟨sec, filling', t, hsec, -, -, hparse, -⟩ h
    rw [hsplit] at hsec
    obtain ⟨rfl, -⟩ := Prod.mk.inj (Option.some.inj hsec)
    rw [parsePmt_pmtSection, haac h] at hparse
    cases hparse
  · intro h
    obtain ⟨entries, hentries, hlist⟩ := hother h
    refine ⟨_, filling, ⟨kPidPcr, [], entries⟩, hsplit, hfill, crcMpeg2_append _, ?_, hlist⟩
    rw [parsePmt_pmtSection, hentries]
    rfl

/-! ## Streams -/

/-- The packets of a table in a stream: one for each call that emits tables, with counters that go
on by one, and in each a section that is read as `table`. -/
structure TablesOk {α : Type} (parse : List Byte → Option α) (table : α → Prop) (cs : List Call)
    (qs : List TsPacket) : Prop where
  number : qs.length = (cs.filter (·.emitsTables)).length
  counters : Consecutive (qs.map (·.counter))
  unitStart : ∀ q ∈ qs, q.unitStart = true
  tables : ∀ q ∈ qs, HoldsTable parse table q.payload

/-- The calls give a stream with program tables that are well formed. -/
def WellFormed (cfg : Config) (cs : List Call) : Prop :=
  ∃ p outs qs, packetizeAll cfg .init cs = some (p, outs) ∧ parseStream outs.flatten = some qs ∧
    TablesOk parsePat (· = [(1, kPidPmt)]) cs (ofPid 0 qs) ∧
    TablesOk parsePmt cfg.Lists cs (ofPid kPidPmt qs)

/-- The packets of a PID that carry one and the same table. -/
structure Carries (data : List Byte) (cs : List Call) (counter : Nat) (qs : List TsPacket) : Prop where
  number : qs.length = (cs.filter (·.emitsTables)).length
  counted : ∃ n, Counted (increment counter) qs n
  packet : ∀ q ∈ qs, q.unitStart = true ∧ q.payload = sectionPayload data

theorem Carries.cons {data : List Byte} {c : Call} {cs : List Call} {pid counter counter' : Nat}
    {qs : List TsPacket} (h : Carries data cs counter' qs)
    (hcounter : counter' = if c.emitsTables then increment counter else counter) :
    Carries data (c :: cs) counter
      ((if c.emitsTables then [⟨pid, true, increment counter, sectionPayload data⟩] else []) ++ qs) := by
  by_cases hemits : c.emitsTables = true
  · rw [if_pos hemits] at hcounter ⊢
    subst hcounter
    obtain ⟨n, hn⟩ := h.counted
    refine ⟨?_, ⟨n, rfl, hn⟩, ?_⟩
    · rw [List.filter_cons_of_pos hemits, List.length_cons, ← h.number]
      rfl
    · intro q hq
      rcases List.mem_cons.1 hq with rfl | hq
      · exact ⟨rfl, rfl⟩
      · exact h.packet q hq
  · rw [if_neg hemits] at hcounter ⊢
    subst hcounter
    refine ⟨?_, h.counted, h.packet⟩
    rw [List.filter_cons_of_neg hemits]
    exact h.number

theorem ofPid_es {cfg : Config} {p p' : Packer} {c : Call} {es : List TsPacket}
    (h : Emits cfg p c p' es) {pid : Nat} (hv : kPidVideo ≠ pid) (ha : kPidAudio ≠ pid) :
    ofPid pid es = [] := by
  refine ofPid_other h.pid ?_
  rw [Call.streamPid]
  split
  · exact ha
  · exact hv

/-- The packets of a table in a stream, from what a call adds to them. -/
theorem Stream.carries {cfg : Config} {pid : Nat} {data : List Byte} {counter : Packer → Nat}
    (hv : kPidVideo ≠ pid) (ha : kPidAudio ≠ pid)
    (hfront : ∀ p c, ofPid pid (tablePackets cfg p c ++ clockPackets c) =
      if c.emitsTables then [⟨pid, true, increment (counter p), sectionPayload data⟩] else [])
    (hcounter : ∀ {p p' c es}, Emits cfg p c p' es →
      counter p' = if c.emitsTables then increment (counter p) else counter p)
    {p : Packer} {cs : List Call} {qs : List TsPacket} (h : Stream cfg p cs qs) :
    Carries data cs (counter p) (ofPid pid qs) := by
  induction h with
  | nil => exact ⟨rfl, ⟨_, rfl⟩, fun _ hq => absurd hq List.not_mem_nil⟩
  | @cons p p' c cs es qs hemits _ ih =>
    rw [ofPid_append, ofPid_append, hfront, ofPid_es hemits hv ha, List.append_nil]
    exact ih.cons (hcounter hemits)

/-- The packets of the program association in a stream. -/
theorem Stream.pat {cfg : Config} {p : Packer} {cs : List Call} {qs : List TsPacket}
    (h : Stream cfg p cs qs) : Carries patSection cs p.patContinuityCounter (ofPid 0 qs) := by
  refine h.carries (by decide) (by decide) (fun p c => ?_) Emits.pat
  rw [tablePackets, clockPackets]
  cases c.emitsTables <;> cases c.emitsPcr <;> rfl

/-- The packets of the program map in a stream. -/
theorem Stream.pmt {cfg : Config} {p : Packer} {cs : List Call} {qs : List TsPacket}
    (h : Stream cfg p cs qs) :
    Carries (pmtSection cfg.tracks) cs p.pmtContinuityCounter (ofPid kPidPmt qs) := by
  refine h.carries (by decide) (by decide) (fun p c => ?_) Emits.pmt
  rw [tablePackets, clockPackets]
  cases c.emitsTables <;> cases c.emitsPcr <;> rfl

/-- Packets that carry a table are well formed exactly if the table is, or there are none. -/
theorem Carries.tablesOk_iff {α : Type} {parse : List Byte → Option α} {table : α → Prop}
    {data : List Byte} {cs : List Call} {counter : Nat} {qs : List TsPacket}
    (h : Carries data cs counter qs) (hcounter : counter < 16) :
    TablesOk parse table cs qs ↔
      ((∃ c ∈ cs, c.emitsTables) → HoldsTable parse table (sectionPayload data)) := by
  have hmem : (∃ c ∈ cs, c.emitsTables) ↔ ∃ q, q ∈ qs := by
    rw [← List.length_pos_iff_exists_mem, h.number, List.length_pos_iff_exists_mem]
    simp only [List.mem_filter]
  constructor
  · intro hok hemits
    obtain ⟨q, hq⟩ := hmem.1 hemits
    have htable := hok.tables q hq
    rwa [(h.packet q hq).2] at htable
  · intro htable
    obtain ⟨n, hn⟩ := h.counted
    refine ⟨h.number, hn.consecutive (increment_lt hcounter), fun q hq => (h.packet q hq).1, ?_⟩
    intro q hq
    rw [(h.packet q hq).2]
    exact htable (hmem.2 ⟨q, hq⟩)

/-- The tables of a stream are well formed exactly if the program map can be read or is not there. -/
theorem wellFormed_iff_pmt {cfg : Config} {cs : List Call} (hcs : ∀ c ∈ cs, c.Fits)
    (hcsd : ∀ c ∈ cs, c.emitsTables → cfg.CsdOk) :
    WellFormed cfg cs ↔ ((∃ c ∈ cs, c.emitsTables) →
      HoldsTable parsePmt cfg.Lists (sectionPayload (pmtSection cfg.tracks))) := by
  have hok := Packer.Ok.init cfg
  obtain ⟨p, outs, qs, hrun, -, henc, hstream⟩ := packetizeAll_spec hcsd hok hcs
  have hpat : TablesOk parsePat (· = [(1, kPidPmt)]) cs (ofPid 0 qs) ↔ _ :=
    hstream.pat.tablesOk_iff hok.pat
  have hpmt : TablesOk parsePmt cfg.Lists cs (ofPid kPidPmt qs) ↔ _ :=
    hstream.pmt.tablesOk_iff hok.pmt
  rw [← hpmt]
  constructor
  · rintro ⟨p', outs', qs', hrun', hparse, -, htables⟩
    rw [hrun] at hrun'
    obtain ⟨rfl, rfl⟩ := Prod.mk.inj (Option.some.inj hrun')
    rw [henc.parseStream] at hparse
    obtain rfl := Option.some.inj hparse
    exact htables
  · exact fun htables => ⟨p, outs, qs, hrun, henc.parseStream, hpat.2 fun _ => holdsTable_pat, htables⟩

theorem not_wellFormed {cfg : Config} {cs : List Call} (hcs : ∀ c ∈ cs, c.Fits)
    (hcsd : ∀ c ∈ cs, c.emitsTables → cfg.CsdOk) (haac : cfg.HasAac) {c : Call} (hc : c ∈ cs)
    (hemits : c.emitsTables = true) : ¬ WellFormed cfg cs := by
  intro h
  have hpmt := (wellFormed_iff_pmt hcs hcsd).1 h ⟨c, hc, hemits⟩
  exact (holdsTable_pmt_iff (hcsd c hc hemits)).1 hpmt haac

/-- Over every sequence of calls: the program tables are well formed exactly if no AAC audio track
is in them. -/
theorem wellFormed_iff (cfg : Config) (cs : List Call) (hcs : ∀ c ∈ cs, c.Fits)
    (hcsd : ∀ c ∈ cs, c.emitsTables → cfg.CsdOk) :
    WellFormed cfg cs ↔ (cfg.HasAac → ∀ c ∈ cs, ¬ c.emitsTables) := by
  constructor
  · exact fun h haac c hc hemits => not_wellFormed hcs hcsd haac hc hemits h
  · intro h
    rw [wellFormed_iff_pmt hcs hcsd]
    rintro ⟨c, hc, hemits⟩
    exact (holdsTable_pmt_iff (hcsd c hc hemits)).2 fun haac => h haac c hc hemits

/-- A video frame with the tables before it. -/
def tableCall : Call := ⟨false, [1], 1, [], 0, 0, 0⟩

theorem tableCall_fits : ∀ c ∈ [tableCall, tableCall], c.Fits :=
  List.forall_mem_cons.2 ⟨by decide, List.forall_mem_singleton.2 (by decide)⟩

theorem wellFormed_pcm :
    WellFormed ⟨true, true, [[0, 0, 0, 1, 0x67, 0x64, 0x00, 0x1f]]⟩ [tableCall, tableCall] :=
  (wellFormed_iff _ _ tableCall_fits fun _ _ _ => by decide).2 fun haac => absurd haac.2 (by decide)

theorem not_wellFormed_aac :
    (∀ c ∈ [tableCall, tableCall], c.Fits) ∧ Config.CsdOk ⟨true, false, []⟩ ∧
      ¬ WellFormed ⟨true, false, []⟩ [tableCall, tableCall] :=
  ⟨tableCall_fits, by decide, not_wellFormed tableCall_fits (fun _ _ _ => by decide) ⟨rfl, rfl⟩
    List.mem_cons_self (by decide)⟩

end VendorAmlogic.Ts
