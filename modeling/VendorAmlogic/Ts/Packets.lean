import VendorAmlogic.Ts.Packer
import VendorAmlogic.Ts.Demux

/-!
# The packets of a call

What `packetize` writes, read back packet by packet: none of its checks fails,
the number of packets is the one it has made room for, and each packet is as
`parsePacket` has it.
-/

namespace VendorAmlogic.Ts

open VendorAmlogic.Lib

/-! ## Headers -/

theorem byte_toNat {n : Nat} (h : n < 256) : (byte n).toNat = n := by
  rw [byte, BitVec.toNat_ofNat]
  exact Nat.mod_eq_of_lt h

theorem lowByte_toNat (n : Nat) : (lowByte n).toNat = n % 256 := by
  rw [lowByte, Nat.and_two_pow_sub_one_eq_mod n 8]
  exact byte_toNat (Nat.mod_lt _ (by omega))

/-- The bits of a unit start. -/
def unitStartBit (unitStart : Bool) : Byte := if unitStart then 0x40 else 0x00

/-- Below bits that are not in the mask, the mask gives back the high byte. -/
theorem highByte_and {bits mask : Byte} {k n : Nat} (hmask : mask.toNat = 2 ^ k - 1)
    (hbits : bits &&& mask = 0#8) (hn : n / 256 < 2 ^ k) :
    (highByte bits n &&& mask).toNat = n / 256 := by
  have hlt : n / 256 < 256 := by
    have := mask.isLt
    omega
  rw [highByte, BitVec.and_or_distrib_right, hbits, BitVec.zero_or, BitVec.toNat_and, hmask,
    Nat.and_two_pow_sub_one_eq_mod, Nat.shiftRight_eq_div_pow, byte_toNat hlt, Nat.mod_eq_of_lt hn]

theorem highByte_unitStartBit (unitStart : Bool) {pid : Nat} (h : pid < 8192) :
    (highByte (unitStartBit unitStart) pid &&& 0x1f).toNat = pid / 256 ∧
      highByte (unitStartBit unitStart) pid &&& 0x40 = unitStartBit unitStart := by
  refine ⟨highByte_and (k := 5) rfl (by cases unitStart <;> rfl) (by omega), ?_⟩
  have hhigh : pid / 2 ^ 8 < 32 := by omega
  rw [highByte, Nat.shiftRight_eq_div_pow]
  generalize pid / 2 ^ 8 = n at hhigh
  cases unitStart <;> interval_cases n <;> rfl

/-- The last byte of a header. -/
def controlByte (numPaddingBytes counter : Nat) : Byte :=
  (if 0 < numPaddingBytes then 0x30 else 0x10) ||| byte counter

theorem controlByte_bits (n : Nat) {counter : Nat} (h : counter < 16) :
    (controlByte n counter &&& 0x0f).toNat = counter ∧ controlByte n counter &&& 0x10 = 0x10 ∧
      controlByte n counter &&& 0x20 = if 0 < n then 0x20 else 0 := by
  rw [controlByte]
  split <;> interval_cases counter <;> decide

theorem length_padding (n : Nat) : (padding n).length = n := by
  unfold padding
  split
  · split
    · simp only [List.length_cons, List.length_replicate]
      omega
    · simp only [List.length_cons, List.length_nil]
      omega
  · simp only [List.length_nil]
    omega

/-- The adaptation field is skipped whole. -/
theorem skipAdaptation_padding {n : Nat} (h : 0 < n) (hn : n ≤ 256) (rest : List Byte) :
    skipAdaptation (padding n ++ rest) = some rest := by
  have hlen := length_padding n
  rw [padding, if_pos h] at hlen ⊢
  rw [List.length_cons] at hlen
  rw [List.cons_append, skipAdaptation, byte_toNat (by omega), if_pos (by rw [List.length_append]; omega)]
  congr 1
  exact List.drop_left' (by omega)

theorem tsHeader_append (unitStart : Byte) (pid counter n : Nat) (rest : List Byte) :
    tsHeader unitStart pid counter n ++ rest =
      (0x47 : Byte) :: highByte unitStart pid :: lowByte pid :: controlByte n counter :: rest := rfl

/-- A packet is read back as it was put together. -/
theorem parsePacket_tsHeader {unitStart : Bool} {pid counter n : Nat} {payload : List Byte}
    (hpid : pid < 8192) (hcounter : counter < 16) (hlen : n + payload.length = 184) :
    parsePacket (tsHeader (unitStartBit unitStart) pid counter n ++ (padding n ++ payload)) =
      some ⟨pid, unitStart, counter, payload⟩ := by
  obtain ⟨hp, hu⟩ := highByte_unitStartBit unitStart hpid
  obtain ⟨hc, hflag, hadapt⟩ := controlByte_bits n hcounter
  have hrest : (padding n ++ payload).length = 184 := by
    rw [List.length_append, length_padding, hlen]
  have hbehind : behindAdaptation (controlByte n counter) (padding n ++ payload) = some payload := by
    rw [behindAdaptation, hadapt]
    by_cases hn : 0 < n
    · rw [if_pos hn, if_pos (by decide), skipAdaptation_padding hn (by omega)]
    · rw [if_neg hn, if_neg (by decide), padding, if_neg hn, List.nil_append]
  have hstart : decide (unitStartBit unitStart ≠ 0) = unitStart := by
    cases unitStart <;> decide
  rw [tsHeader_append, parsePacket_eq hrest hbehind, hp, hu, lowByte_toNat, hc, hflag,
    if_pos (by decide), hstart, Nat.div_add_mod' pid 256]

/-! ## Access units -/

/-- Continuity counters from `n` on, and the next one. -/
def Counted : Nat → List TsPacket → Nat → Prop
  | n, [], n' => n' = n
  | n, q :: qs, n' => q.counter = n ∧ Counted (increment n) qs n'

theorem increment_lt {n : Nat} (h : n < 16) : increment n < 16 := by
  unfold increment
  split <;> omega

theorem Counted.append {n n' n'' : Nat} {qs qs' : List TsPacket} (h : Counted n qs n')
    (h' : Counted n' qs' n'') : Counted n (qs ++ qs') n'' := by
  induction qs generalizing n with
  | nil =>
    obtain rfl := h
    exact h'
  | cons q qs ih => exact ⟨h.1, ih h.2⟩

theorem Counted.lt {n n' : Nat} {qs : List TsPacket} (h : Counted n qs n') (hn : n < 16) :
    n' < 16 := by
  induction qs generalizing n with
  | nil =>
    obtain rfl := h
    exact hn
  | cons q qs ih => exact ih h.2 (increment_lt hn)

/-- A packet of an access unit passes its check and is read back. -/
theorem esPacket_spec (unitStart : Bool) {pid counter : Nat} (head rest : List Byte)
    (hpid : pid < 8192) (hcounter : counter < 16) (hhead : head.length ≤ 184) :
    ∃ packet, esPacket (unitStartBit unitStart) pid counter head rest =
        some (packet, min rest.length (184 - head.length)) ∧
      packet.length = 188 ∧
      parsePacket packet = some ⟨pid, unitStart, counter, head ++ rest.take (184 - head.length)⟩ := by
  set copy := min rest.length (184 - head.length) with hcopy
  have htake : rest.take (184 - head.length) = rest.take copy := by
    rw [hcopy, Nat.min_comm, ← List.take_eq_take_min]
  have hfill : 184 - head.length - copy + (head ++ rest.take copy).length = 184 := by
    rw [List.length_append, List.length_take]
    omega
  have hassoc : tsHeader (unitStartBit unitStart) pid counter (184 - head.length - copy) ++
      padding (184 - head.length - copy) ++ head ++ rest.take copy =
      tsHeader (unitStartBit unitStart) pid counter (184 - head.length - copy) ++
        (padding (184 - head.length - copy) ++ (head ++ rest.take copy)) := by
    rw [List.append_assoc, List.append_assoc]
  have hlen : (tsHeader (unitStartBit unitStart) pid counter (184 - head.length - copy) ++
      (padding (184 - head.length - copy) ++ (head ++ rest.take copy))).length = 188 := by
    rw [List.length_append, List.length_append, length_padding, hfill]
    rfl
  refine ⟨_, ?_, hlen, ?_⟩
  · rw [esPacket, ← hcopy, hassoc, if_pos hlen]
  · rw [htake, parsePacket_tsHeader hpid hcounter hfill]

/-- The packets after the first one: their payloads are the rest of the access unit. -/
theorem laterPackets_spec {pid fuel counter : Nat} {rest : List Byte} (hpid : pid < 8192)
    (hcounter : counter < 16) (hfuel : rest.length ≤ fuel) :
    ∃ bs counter' qs, laterPackets pid fuel counter rest = some (bs, counter') ∧ Encodes bs qs ∧
      (∀ q ∈ qs, q.pid = pid ∧ q.unitStart = false) ∧ qs.flatMap (·.payload) = rest ∧
      Counted counter qs counter' ∧ qs.length = (rest.length + 183) / 184 := by
  induction fuel generalizing counter rest with
  | zero =>
    obtain rfl : rest = [] := List.eq_nil_of_length_eq_zero (by omega)
    exact ⟨[], counter, [], rfl, .nil, by simp, rfl, rfl, rfl⟩
  | succ fuel ih =>
    by_cases hrest : rest = []
    · subst hrest
      exact ⟨[], counter, [], rfl, .nil, by simp, rfl, rfl, rfl⟩
    · have hpos := List.length_pos_of_ne_nil hrest
      obtain ⟨packet, hpacket, hlen, hparse⟩ :=
        esPacket_spec false [] rest hpid hcounter (by simp)
      simp only [List.length_nil, Nat.sub_zero, List.nil_append] at hpacket hparse
      obtain ⟨bs, counter', qs, hloop, henc, hqs, hdata, hcount, hnum⟩ :=
        @ih (increment counter) (rest.drop (min rest.length 184)) (increment_lt hcounter)
          (by rw [List.length_drop]; omega)
      refine ⟨packet ++ bs, counter', _ :: qs, ?_, .cons hparse hlen henc, ?_, ?_, ⟨rfl, hcount⟩, ?_⟩
      · rw [laterPackets, if_neg hrest]
        change (esPacket (unitStartBit false) pid counter [] rest >>= _) = _
        rw [hpacket]
        change (laterPackets pid fuel (increment counter) (rest.drop (min rest.length 184)) >>= _) = _
        rw [hloop]
        rfl
      · intro q hq
        rcases List.mem_cons.1 hq with rfl | hq
        · exact ⟨rfl, rfl⟩
        · exact hqs q hq
      · rw [List.flatMap_cons, hdata, Nat.min_comm, List.take_eq_take_min, List.take_append_drop]
      · rw [List.length_cons, hnum, List.length_drop]
        omega

/-- The header of the PES packet fits into one transport packet. -/
def Call.Fits (c : Call) : Prop := c.pesHeaderSize ≤ 184

instance (c : Call) : Decidable c.Fits := inferInstanceAs (Decidable (_ ≤ _))

theorem Call.length_pesHeader (cfg : Config) (c : Call) :
    (c.pesHeader cfg).length = c.pesHeaderSize := by
  rw [pesHeader, pesHeaderSize, privateLen]
  split
  · simp [pesStart, ptsField]
    omega
  · simp [pesStart, ptsField]
    omega

theorem Call.streamPid_lt (c : Call) : c.streamPid < 8192 := by
  rw [streamPid]
  split <;> decide

/-- The packets of an access unit are one unit of its stream. -/
theorem esPackets_spec (cfg : Config) {counter : Nat} {c : Call} (hc : c.Fits) (hcounter : counter < 16) :
    ∃ bs counter' qs, esPackets cfg counter c = some (bs, counter') ∧ Encodes bs qs ∧
      (∀ q ∈ qs, q.pid = c.streamPid) ∧ IsUnit (c.pesHeader cfg ++ c.buffer) qs ∧
      Counted counter qs counter' ∧
      qs.length = 1 + (c.buffer.length - (184 - c.pesHeaderSize) + 183) / 184 := by
  have hlen := c.length_pesHeader cfg
  obtain ⟨packet, hpacket, hlen188, hparse⟩ := esPacket_spec true (c.pesHeader cfg) c.buffer
    c.streamPid_lt hcounter (hlen ▸ hc)
  set copy := min c.buffer.length (184 - (c.pesHeader cfg).length) with hcopy
  have htake : c.buffer.take (184 - (c.pesHeader cfg).length) = c.buffer.take copy := by
    rw [hcopy, Nat.min_comm, ← List.take_eq_take_min]
  obtain ⟨bs, counter', qs, hloop, henc, hqs, hdata, hcount, hnum⟩ :=
    @laterPackets_spec c.streamPid c.buffer.length (increment counter) (c.buffer.drop copy)
      c.streamPid_lt (increment_lt hcounter) (by rw [List.length_drop]; omega)
  refine ⟨packet ++ bs, counter', _ :: qs, ?_, .cons hparse hlen188 henc, ?_, ?_, ⟨rfl, hcount⟩, ?_⟩
  · rw [esPackets]
    change (esPacket (unitStartBit true) c.streamPid counter (c.pesHeader cfg) c.buffer >>= _) = _
    rw [hpacket]
    change (laterPackets c.streamPid c.buffer.length (increment counter) (c.buffer.drop copy) >>= _) = _
    rw [hloop]
    rfl
  · intro q hq
    rcases List.mem_cons.1 hq with rfl | hq
    · rfl
    · exact (hqs q hq).1
  · refine ⟨_, qs, rfl, rfl, fun r hr => (hqs r hr).2, ?_⟩
    rw [hdata, htake, List.append_assoc, List.take_append_drop]
  · rw [List.length_cons, hnum, List.length_drop, hcopy, hlen]
    omega

/-! ## Tables and clock -/

/-- What a section packet carries: a pointer field, the section with its checksum, and filling. -/
def sectionPayload (data : List Byte) : List Byte :=
  0x00 :: data ++ Crc.toBytes (crc32 data) ++ List.replicate (179 - data.length) 0xff

theorem sectionPacket_spec {pid counter : Nat} {data : List Byte} (hpid : pid < 8192)
    (hcounter : counter < 16) (hdata : data.length ≤ 179) :
    Encodes (sectionPacket pid counter data) [⟨pid, true, counter, sectionPayload data⟩] := by
  have hfill : 0 + (sectionPayload data).length = 184 := by
    simp [sectionPayload, Crc.toBytes]
    omega
  have heq : sectionPacket pid counter data =
      tsHeader (unitStartBit true) pid counter 0 ++ (padding 0 ++ sectionPayload data) := by
    have hrest : 188 - (tsHeader 0x40 pid counter 0 ++
        (0x00 :: data ++ Crc.toBytes (crc32 data))).length = 179 - data.length := by
      simp [tsHeader, Crc.toBytes]
    rw [sectionPacket, hrest, List.append_assoc]
    rfl
  have hlen : (tsHeader (unitStartBit true) pid counter 0 ++
      (padding 0 ++ sectionPayload data)).length = 188 := by
    rw [List.length_append, List.length_append, length_padding, hfill]
    rfl
  rw [heq]
  exact .one (parsePacket_tsHeader hpid hcounter hfill) hlen

theorem pcrPacket_spec (nowUs : Int) : Encodes (pcrPacket nowUs) [⟨kPidPcr, true, 0, []⟩] := by
  set field := pcrField (u64 (nowUs * 27) / 300) (u64 (nowUs * 27) % 300) with hfield
  have hlen : field.length = 5 := rfl
  have heq : pcrPacket nowUs = (0x47 : Byte) :: highByte 0x40 kPidPcr :: lowByte kPidPcr :: 0x20 ::
      0xb7 :: 0x10 :: (field ++ List.replicate 177 0xff) := rfl
  have htail : ((0x10 : Byte) :: (field ++ List.replicate 177 0xff)).length = 183 := by
    rw [List.length_cons, List.length_append, List.length_replicate, hlen]
  have hrest : ((0xb7 : Byte) :: 0x10 :: (field ++ List.replicate 177 0xff)).length = 184 := by
    rw [List.length_cons, htail]
  have hbehind : behindAdaptation 0x20 (0xb7 :: 0x10 :: (field ++ List.replicate 177 0xff)) =
      some [] := by
    have hskip : (0xb7 : Byte).toNat = 183 := rfl
    rw [behindAdaptation, if_pos (by decide), skipAdaptation, hskip, htail, if_pos le_rfl,
      List.drop_eq_nil_of_le (Nat.le_of_eq htail)]
  rw [heq]
  refine .one ?_ (by simp only [List.length_cons, htail])
  rw [parsePacket_eq hrest hbehind]
  rfl

/-- The packer between two calls. -/
structure Packer.Ok (cfg : Config) (p : Packer) : Prop where
  pat : p.patContinuityCounter < 16
  pmt : p.pmtContinuityCounter < 16
  counter : ∀ isAudio, p.counter isAudio < 16
  descriptors : p.descriptors = if p.headFinalized then cfg.descriptors else []

theorem Packer.Ok.init (cfg : Config) : Packer.init.Ok cfg :=
  ⟨by decide, by decide, by decide, rfl⟩

theorem headFinalize_spec {cfg : Config} {p : Packer} (hcsd : cfg.CsdOk)
    (hp : p.descriptors = if p.headFinalized then cfg.descriptors else []) :
    headFinalize cfg p = some { p with headFinalized := true, descriptors := cfg.descriptors } := by
  obtain ⟨_, _, _, _, fin, ds⟩ := p
  rw [headFinalize]
  cases fin with
  | true =>
    obtain rfl : ds = cfg.descriptors := hp
    rfl
  | false =>
    obtain rfl : ds = [] := hp
    rw [if_neg Bool.false_ne_true, if_pos hcsd, List.nil_append]

/-- The entries for the tracks. -/
def Config.tracks (cfg : Config) : List Byte := (esEntries cfg cfg.descriptors).getD []

theorem Config.profile_length {cfg : Config} (hcsd : cfg.CsdOk) : cfg.profile.length = 3 := by
  obtain ⟨_, _, csd⟩ := cfg
  cases csd with
  | nil => rfl
  | cons sps csd =>
    have := (hcsd sps rfl).2
    simp only [profile, List.length_take, List.length_drop]
    omega

theorem esEntries_spec {cfg : Config} (hcsd : cfg.CsdOk) :
    esEntries cfg cfg.descriptors = some cfg.tracks ∧ cfg.tracks.length ≤ 24 := by
  have hlen := cfg.profile_length hcsd
  rw [Config.tracks]
  cases ha : cfg.hasAudio <;> cases hm : cfg.isPcmAudio <;>
    simp [esEntries, Config.descriptors, ha, hm, esEntry, Config.avcDescriptor, hrdDescriptor,
      lpcmDescriptor, hlen]

/-- The packets of the program tables. -/
def tablePackets (cfg : Config) (p : Packer) (c : Call) : List TsPacket :=
  if c.emitsTables then
    [⟨0, true, increment p.patContinuityCounter, sectionPayload patSection⟩,
      ⟨kPidPmt, true, increment p.pmtContinuityCounter, sectionPayload (pmtSection cfg.tracks)⟩]
  else []

def clockPackets (c : Call) : List TsPacket :=
  if c.emitsPcr then [⟨kPidPcr, true, 0, []⟩] else []

/-- The packer after the tables of a call. -/
def Packer.afterTables (cfg : Config) (p : Packer) (c : Call) : Packer :=
  if c.emitsTables then
    { p with
      patContinuityCounter := increment p.patContinuityCounter
      pmtContinuityCounter := increment p.pmtContinuityCounter
      headFinalized := true
      descriptors := cfg.descriptors }
  else p

theorem emitTables_spec {cfg : Config} {p : Packer} {c : Call} (hcsd : c.emitsTables → cfg.CsdOk)
    (hp : p.Ok cfg) :
    ∃ bs, emitTables cfg p c = some (p.afterTables cfg c, bs) ∧
      Encodes bs (tablePackets cfg p c) := by
  rw [emitTables, Packer.afterTables, tablePackets]
  split
  · rename_i hemits
    obtain ⟨hes, hlen⟩ := esEntries_spec (hcsd hemits)
    have hpatLen : patSection.length ≤ 179 := by decide
    have hpmtLen : (pmtSection cfg.tracks).length ≤ 179 := by
      simp [pmtSection, pmtHead]
      omega
    have hpat := sectionPacket_spec (show 0 < 8192 by decide) (increment_lt hp.pat) hpatLen
    have hpmt := sectionPacket_spec (show kPidPmt < 8192 by decide) (increment_lt hp.pmt) hpmtLen
    refine ⟨_, ?_, hpat.append hpmt⟩
    have hfin := headFinalize_spec (p := { p with
      patContinuityCounter := increment p.patContinuityCounter
      pmtContinuityCounter := increment p.pmtContinuityCounter }) (hcsd hemits) hp.descriptors
    rw [emitPatAndPmt, hfin, Option.bind_eq_bind, Option.bind_some, hes]
    rfl
  · exact ⟨[], rfl, .nil⟩

/-! ## Calls -/

/-- What a call leaves behind: `es` are the packets of its access unit. -/
structure Emits (cfg : Config) (p : Packer) (c : Call) (p' : Packer) (es : List TsPacket) : Prop where
  pid : ∀ q ∈ es, q.pid = c.streamPid
  unit : IsUnit (c.pesHeader cfg ++ c.buffer) es
  counted : Counted (p.counter c.isAudio) es (p'.counter c.isAudio)
  other : p'.counter (!c.isAudio) = p.counter (!c.isAudio)
  pat : p'.patContinuityCounter =
    if c.emitsTables then increment p.patContinuityCounter else p.patContinuityCounter
  pmt : p'.pmtContinuityCounter =
    if c.emitsTables then increment p.pmtContinuityCounter else p.pmtContinuityCounter

theorem counter_afterTables (cfg : Config) (p : Packer) (c : Call) (isAudio : Bool) :
    (p.afterTables cfg c).counter isAudio = p.counter isAudio := by
  rw [Packer.afterTables]
  split <;> rfl

theorem counter_setCounter (p : Packer) (isAudio : Bool) (n : Nat) :
    (p.setCounter isAudio n).counter isAudio = n ∧
      (p.setCounter isAudio n).counter (!isAudio) = p.counter (!isAudio) := by
  cases isAudio <;> exact ⟨rfl, rfl⟩

theorem tableCounters_setCounter (p : Packer) (isAudio : Bool) (n : Nat) :
    (p.setCounter isAudio n).patContinuityCounter = p.patContinuityCounter ∧
      (p.setCounter isAudio n).pmtContinuityCounter = p.pmtContinuityCounter := by
  cases isAudio <;> exact ⟨rfl, rfl⟩

theorem tableCounters_afterTables (cfg : Config) (p : Packer) (c : Call) :
    (p.afterTables cfg c).patContinuityCounter =
        (if c.emitsTables then increment p.patContinuityCounter else p.patContinuityCounter) ∧
      (p.afterTables cfg c).pmtContinuityCounter =
        (if c.emitsTables then increment p.pmtContinuityCounter else p.pmtContinuityCounter) := by
  rw [Packer.afterTables]
  split <;> exact ⟨rfl, rfl⟩

theorem Packer.Ok.afterTables {cfg : Config} {p : Packer} (h : p.Ok cfg) (c : Call) :
    (p.afterTables cfg c).Ok cfg := by
  rw [Packer.afterTables]
  split
  · exact ⟨increment_lt h.pat, increment_lt h.pmt, h.counter, rfl⟩
  · exact h

theorem Packer.Ok.setCounter {cfg : Config} {p : Packer} (h : p.Ok cfg) (isAudio : Bool) {n : Nat}
    (hn : n < 16) : (p.setCounter isAudio n).Ok cfg := by
  cases isAudio with
  | true =>
    refine ⟨h.pat, h.pmt, fun b => ?_, h.descriptors⟩
    cases b
    · exact h.counter false
    · exact hn
  | false =>
    refine ⟨h.pat, h.pmt, fun b => ?_, h.descriptors⟩
    cases b
    · exact hn
    · exact h.counter true

/-- The room that is made for the packets is what they take. -/
theorem Call.numTSPackets_eq (c : Call) :
    c.numTSPackets = (if c.emitsTables then 2 else 0) + (if c.emitsPcr then 1 else 0) +
      (1 + (c.buffer.length - (184 - c.pesHeaderSize) + 183) / 184) := by
  have hrest : c.buffer.length - min c.buffer.length (188 - 4 - c.pesHeaderSize) =
      c.buffer.length - (184 - c.pesHeaderSize) := by omega
  rw [numTSPackets, hrest]
  generalize c.buffer.length - (184 - c.pesHeaderSize) = remaining
  have hlast : (if remaining / 184 = 0 ∧ 0 < remaining - remaining / 184 * 184 then 1
      else if 0 < remaining / 184 ∧ 184 < remaining - remaining / 184 * 184 + 184 then 1 else 0) =
      (remaining + 183) / 184 - remaining / 184 := by
    split
    · omega
    · split <;> omega
  omega

theorem packetize_spec {cfg : Config} {p : Packer} {c : Call} (hcsd : c.emitsTables → cfg.CsdOk)
    (hp : p.Ok cfg) (hc : c.Fits) :
    ∃ p' out es, packetize cfg p c = some (p', out) ∧ p'.Ok cfg ∧
      out.length = c.numTSPackets * 188 ∧
      Encodes out (tablePackets cfg p c ++ clockPackets c ++ es) ∧ Emits cfg p c p' es := by
  obtain ⟨tables, htables, hencTables⟩ := emitTables_spec hcsd hp
  have hpT := hp.afterTables c
  obtain ⟨es, counter', qs, hes, hencEs, hpid, hunit, hcount, hnum⟩ :=
    esPackets_spec cfg hc (hpT.counter c.isAudio)
  have hencClock : Encodes (if c.emitsPcr then pcrPacket c.nowUs else []) (clockPackets c) := by
    rw [clockPackets]
    split
    · exact pcrPacket_spec c.nowUs
    · exact .nil
  have henc := (hencTables.append hencClock).append hencEs
  have hlen : (tables ++ (if c.emitsPcr then pcrPacket c.nowUs else []) ++ es).length =
      c.numTSPackets * 188 := by
    rw [henc.length, c.numTSPackets_eq, List.length_append, List.length_append, hnum, tablePackets,
      clockPackets]
    congr 2
    congr 1
    · split <;> rfl
    · split <;> rfl
  refine ⟨(p.afterTables cfg c).setCounter c.isAudio counter', _, qs, ?_,
    hpT.setCounter _ (hcount.lt (hpT.counter _)), hlen, henc, hpid, hunit, ?_, ?_, ?_, ?_⟩
  · have hheader : c.pesHeaderSize ≤ 188 - 4 := hc
    rw [packetize, htables]
    simp only [guard, hheader, hes, hlen, if_true, Option.bind_eq_bind, Option.bind_some,
      Option.pure_def]
  · rw [(counter_setCounter _ _ _).1, ← counter_afterTables cfg p c]
    exact hcount
  · rw [(counter_setCounter _ _ _).2, counter_afterTables]
  · rw [(tableCounters_setCounter _ _ _).1, (tableCounters_afterTables _ _ _).1]
  · rw [(tableCounters_setCounter _ _ _).2, (tableCounters_afterTables _ _ _).2]

/-- The packets of a sequence of calls. -/
inductive Stream (cfg : Config) : Packer → List Call → List TsPacket → Prop where
  | nil {p : Packer} : Stream cfg p [] []
  | cons {p p' : Packer} {c : Call} {cs : List Call} {es qs : List TsPacket} :
      Emits cfg p c p' es → Stream cfg p' cs qs →
        Stream cfg p (c :: cs) (tablePackets cfg p c ++ clockPackets c ++ es ++ qs)

/-- No check of a sequence of calls fails, and the packets are those of a `Stream`. -/
theorem packetizeAll_spec {cfg : Config} {p : Packer} {cs : List Call}
    (hcsd : ∀ c ∈ cs, c.emitsTables → cfg.CsdOk) (hp : p.Ok cfg) (hcs : ∀ c ∈ cs, c.Fits) :
    ∃ p' outs qs, packetizeAll cfg p cs = some (p', outs) ∧
      List.Forall₂ (fun c out => out.length = c.numTSPackets * 188) cs outs ∧
      Encodes outs.flatten qs ∧ Stream cfg p cs qs := by
  induction cs generalizing p with
  | nil => exact ⟨p, [], [], rfl, .nil, .nil, .nil⟩
  | cons c cs ih =>
    obtain ⟨p₁, out, es, hcall, hp₁, hlen, henc, hemits⟩ :=
      packetize_spec (hcsd c List.mem_cons_self) hp (hcs c List.mem_cons_self)
    obtain ⟨p', outs, qs, hrest, hlens, hencs, hstream⟩ :=
      ih (fun c' hc' => hcsd c' (List.mem_cons_of_mem _ hc')) hp₁
        fun c' hc' => hcs c' (List.mem_cons_of_mem _ hc')
    refine ⟨p', out :: outs, _, ?_, .cons hlen hlens, henc.append hencs, .cons hemits hstream⟩
    rw [packetizeAll, hcall, Option.bind_eq_bind, Option.bind_some]
    dsimp only
    rw [hrest]
    rfl

end VendorAmlogic.Ts
