import VendorAmlogic.Ts.Packets

/-!
# The round trip of the packer

A demultiplexer reads back from the stream of any sequence of calls, for the
audio and for the video PID, one PES packet for each call, with the access
unit and its time stamp.
-/

namespace VendorAmlogic.Ts

open VendorAmlogic.Lib

/-! ## Time stamps -/

theorem byte_toNat_mod (n : Nat) : (byte n).toNat = n % 256 := rfl

theorem first_bits {x : Nat} (h : x < 8) :
    (0x20 ||| (x <<< 1) ||| 1) % 256 / 2 % 8 = x := by
  interval_cases x <;> rfl

theorem marker_bits {x : Nat} (h : x < 128) : ((x <<< 1) ||| 1) % 256 / 2 = x := by
  interval_cases x <;> rfl

/-- The five bytes of a time stamp hold its low 33 bits. -/
theorem parsePts_ptsField (c : Call) (rest : List Byte) :
    parsePts (c.ptsField ++ rest) = some (pts c.timeUs % 2 ^ 33) := by
  have h7 (n : Nat) : n &&& 0x7f = n % 128 := Nat.and_two_pow_sub_one_eq_mod n 7
  have h3 (n : Nat) : n &&& 7 = n % 8 := Nat.and_two_pow_sub_one_eq_mod n 3
  rw [Call.ptsField]
  generalize pts c.timeUs = t
  simp only [List.cons_append, List.nil_append, parsePts, byte_toNat_mod, h7, h3]
  rw [first_bits (Nat.mod_lt _ (by omega)), marker_bits (Nat.mod_lt _ (by omega)),
    marker_bits (Nat.mod_lt _ (by omega))]
  simp only [Nat.shiftRight_eq_div_pow]
  congr 1
  omega

/-- While nine times the time fits its type, the time stamp is the time at 90 kHz. -/
theorem pts_eq {timeUs : Int} (h0 : -2 ^ 63 ≤ timeUs * 9) (h1 : timeUs * 9 < 2 ^ 63) :
    ((pts timeUs % 2 ^ 33 : Nat) : Int) = (timeUs * 9).tdiv 100 % 2 ^ 33 := by
  have hfit : i64 (timeUs * 9) = timeUs * 9 := i64_eq_self (by omega) (by omega)
  rw [pts, hfit, u64]
  omega

/-! ## PES packets -/

/-- The PES packet of a call. -/
def Call.pes (cfg : Config) (c : Call) : Pes :=
  ⟨c.streamId cfg, some (pts c.timeUs % 2 ^ 33), c.buffer⟩

theorem parsePes_pesHeader (cfg : Config) {c : Call} (hc : c.Fits) :
    parsePes (c.pesHeader cfg ++ c.buffer) = some (c.pes cfg) := by
  have hsize : c.pesHeaderSize ≤ 184 := hc
  rw [Call.pesHeaderSize] at hsize
  set length := if 65536 ≤ c.pesPacketLength then 0 else c.pesPacketLength with hlength
  set extra := (if 0 < c.pesPrivateData.length then 0x8e :: c.pesPrivateData else []) ++
    List.replicate c.numStuffingBytes (0xff : Byte) with hextra
  have hextraLen : extra.length = c.numStuffingBytes + c.privateLen := by
    rw [hextra, List.length_append, List.length_replicate, Call.privateLen]
    split
    · rw [List.length_cons]
      omega
    · rw [List.length_nil]
      omega
  have hheader : (byte (5 + c.numStuffingBytes + c.privateLen)).toNat = (c.ptsField ++ extra).length := by
    rw [List.length_append, hextraLen, byte_toNat (by omega)]
    simp [Call.ptsField]
    omega
  have hpes : (byte (length >>> 8)).toNat * 256 + (lowByte length).toNat = length := by
    have hlt : length < 65536 := by
      rw [hlength]
      split <;> omega
    rw [lowByte_toNat, Nat.shiftRight_eq_div_pow, byte_toNat_mod]
    omega
  have hpts : (if 0 < c.pesPrivateData.length then 0x81 else 0x80 : Byte) &&& 0x80 ≠ 0 := by
    split <;> decide
  have hsplit : c.pesHeader cfg ++ c.buffer = (0x00 : Byte) :: 0x00 :: 0x01 :: c.streamId cfg ::
      byte (length >>> 8) :: lowByte length :: 0x84 ::
      (if 0 < c.pesPrivateData.length then 0x81 else 0x80) ::
      byte (5 + c.numStuffingBytes + c.privateLen) :: (c.ptsField ++ extra ++ c.buffer) := by
    rw [Call.pesHeader, List.append_assoc]
    rfl
  rw [hsplit, parsePes_eq (by decide) hpts hheader (parsePts_ptsField c extra) ?_]
  · rfl
  · rw [hpes, hlength, ← hheader, byte_toNat (by omega), Call.pesPacketLength]
    split
    · exact Or.inl rfl
    · exact Or.inr (by omega)

/-! ## Streams -/

/-- The PID of a kind of stream. -/
def pidOf (isAudio : Bool) : Nat := if isAudio then kPidAudio else kPidVideo

theorem ofPid_append (pid : Nat) (qs qs' : List TsPacket) :
    ofPid pid (qs ++ qs') = ofPid pid qs ++ ofPid pid qs' := List.filter_append ..

theorem ofPid_self {pid : Nat} {qs : List TsPacket} (h : ∀ q ∈ qs, q.pid = pid) :
    ofPid pid qs = qs :=
  List.filter_eq_self.2 fun q hq => decide_eq_true (h q hq)

theorem ofPid_other {pid pid' : Nat} {qs : List TsPacket} (h : ∀ q ∈ qs, q.pid = pid')
    (hne : pid' ≠ pid) : ofPid pid qs = [] :=
  List.filter_eq_nil_iff.2 fun q hq => by
    rw [h q hq, decide_eq_true_eq]
    exact hne

theorem ofPid_front (cfg : Config) (p : Packer) (c : Call) (isAudio : Bool) :
    ofPid (pidOf isAudio) (tablePackets cfg p c ++ clockPackets c) = [] := by
  rw [tablePackets, clockPackets]
  cases c.emitsTables <;> cases c.emitsPcr <;> cases isAudio <;> rfl

/-- The packets of a PID that a call adds. -/
theorem Emits.ofPid {cfg : Config} {p p' : Packer} {c : Call} {es : List TsPacket}
    (h : Emits cfg p c p' es) (isAudio : Bool) :
    ofPid (pidOf isAudio) (tablePackets cfg p c ++ clockPackets c ++ es) =
      if c.isAudio = isAudio then es else [] := by
  rw [ofPid_append, ofPid_front, List.nil_append]
  split
  · rename_i hkind
    subst hkind
    exact ofPid_self h.pid
  · rename_i hkind
    refine ofPid_other h.pid ?_
    rw [Call.streamPid, pidOf]
    revert hkind
    cases c.isAudio <;> cases isAudio <;> decide

/-- The units of a PID are the PES packets of its calls. -/
theorem Stream.units {cfg : Config} {p : Packer} {cs : List Call} {qs : List TsPacket}
    (h : Stream cfg p cs qs) (isAudio : Bool) :
    collectUnits (ofPid (pidOf isAudio) qs) =
      ([], (cs.filter (·.isAudio == isAudio)).map fun c => c.pesHeader cfg ++ c.buffer) := by
  induction h with
  | nil => rfl
  | @cons p p' c cs es qs hemits _ ih =>
    rw [ofPid_append, hemits.ofPid isAudio]
    by_cases hkind : c.isAudio = isAudio
    · rw [if_pos hkind, List.filter_cons_of_pos (by simp [hkind]), List.map_cons]
      exact hemits.unit.collectUnits ih
    · rw [if_neg hkind, List.filter_cons_of_neg (by simp [hkind]), List.nil_append]
      exact ih

theorem Stream.counted {cfg : Config} {p : Packer} {cs : List Call} {qs : List TsPacket}
    (h : Stream cfg p cs qs) (isAudio : Bool) :
    ∃ n, Counted (p.counter isAudio) (ofPid (pidOf isAudio) qs) n := by
  induction h with
  | nil => exact ⟨_, rfl⟩
  | @cons p p' c cs es qs hemits _ ih =>
    obtain ⟨n, hn⟩ := ih
    refine ⟨n, ?_⟩
    rw [ofPid_append, hemits.ofPid isAudio]
    by_cases hkind : c.isAudio = isAudio
    · subst hkind
      rw [if_pos rfl]
      exact hemits.counted.append hn
    · have hother : isAudio = !c.isAudio := by
        revert hkind
        cases c.isAudio <;> cases isAudio <;> decide
      rw [if_neg hkind, List.nil_append, hother, ← hemits.other, ← hother]
      exact hn

/-- Counters that go on by one, from fifteen to zero. -/
def Consecutive (ns : List Nat) : Prop := ns.IsChain fun n n' => n' = (n + 1) % 16

theorem Counted.consecutive {n n' : Nat} {qs : List TsPacket} (h : Counted n qs n') (hn : n < 16) :
    Consecutive (qs.map (·.counter)) := by
  have hinc {m : Nat} (hm : m < 16) : increment m = (m + 1) % 16 := by
    unfold increment
    split <;> omega
  unfold Consecutive
  induction qs generalizing n with
  | nil => exact .nil
  | cons q qs ih =>
    have hrest := ih h.2 (increment_lt hn)
    cases qs with
    | nil => exact .singleton _
    | cons q' qs =>
      have hnext : q'.counter = (q.counter + 1) % 16 := by rw [h.2.1, h.1, hinc hn]
      exact .cons_cons hnext hrest

/-! ## The round trip -/

theorem mapM_parsePes (cfg : Config) {cs : List Call} (h : ∀ c ∈ cs, c.Fits) :
    (cs.map fun c => c.pesHeader cfg ++ c.buffer).mapM parsePes = some (cs.map (Call.pes cfg)) := by
  induction cs with
  | nil => rfl
  | cons c cs ih =>
    rw [List.map_cons, List.mapM_cons, parsePes_pesHeader cfg (h c List.mem_cons_self),
      ih fun c' hc' => h c' (List.mem_cons_of_mem _ hc')]
    rfl

/-- Every sequence of calls gives packets that a demultiplexer reads back: for each stream the PES
packets of its calls in order, with consecutive counters. -/
theorem packetizeAll_roundTrip (cfg : Config) (cs : List Call) (hcs : ∀ c ∈ cs, c.Fits)
    (hcsd : ∀ c ∈ cs, c.emitsTables → cfg.CsdOk) :
    ∃ p outs, packetizeAll cfg .init cs = some (p, outs) ∧
      List.Forall₂ (fun c out => out.length = c.numTSPackets * 188) cs outs ∧
      (∀ i, 188 * i < outs.flatten.length → outs.flatten[188 * i]? = some 0x47) ∧
      (∀ isAudio, demux (pidOf isAudio) outs.flatten =
          some ((cs.filter (·.isAudio == isAudio)).map (Call.pes cfg)) ∧
        ∃ ns, counters (pidOf isAudio) outs.flatten = some ns ∧ Consecutive ns) ∧
      ∀ c ∈ cs, -2 ^ 63 ≤ c.timeUs * 9 → c.timeUs * 9 < 2 ^ 63 →
        (c.pes cfg).pts = some ((c.timeUs * 9).tdiv 100 % 2 ^ 33).toNat := by
  obtain ⟨p, outs, qs, hrun, hlens, henc, hstream⟩ :=
    packetizeAll_spec hcsd (Packer.Ok.init cfg) hcs
  refine ⟨p, outs, hrun, hlens, ?_, ?_, ?_⟩
  · intro i hi
    rw [henc.length] at hi
    exact henc.sync (by omega)
  · intro isAudio
    obtain ⟨n, hcount⟩ := hstream.counted isAudio
    constructor
    · rw [demux, henc.parseStream, Option.bind_eq_bind, Option.bind_some, hstream.units isAudio]
      exact mapM_parsePes cfg fun c hc => hcs c (List.mem_of_mem_filter hc)
    · refine ⟨_, ?_, hcount.consecutive ((Packer.Ok.init cfg).counter isAudio)⟩
      rw [counters, henc.parseStream]
      rfl
  · intro c _ h0 h1
    have hpts := pts_eq h0 h1
    rw [Call.pes, ← hpts, Int.toNat_natCast]

/-- A video frame with tables and a clock before it, and an audio frame. -/
def sampleCalls : List Call :=
  [⟨false, List.replicate 300 7, 3, [], 0, 1000000, 0⟩, ⟨true, [1, 2, 3], 0, [9], 2, 1000100, 0⟩]

theorem packetizeAll_sampleCalls :
    ∃ p outs, packetizeAll ⟨true, false, []⟩ .init sampleCalls = some (p, outs) ∧
      demux kPidVideo outs.flatten = some [⟨0xe0, some 90000, List.replicate 300 7⟩] ∧
      demux kPidAudio outs.flatten = some [⟨0xc0, some 90009, [1, 2, 3]⟩] := by
  have hfits : ∀ c ∈ sampleCalls, c.Fits :=
    List.forall_mem_cons.2 ⟨by decide, List.forall_mem_singleton.2 (by decide)⟩
  obtain ⟨p, outs, hrun, -, -, hdemux, -⟩ :=
    packetizeAll_roundTrip ⟨true, false, []⟩ sampleCalls hfits fun _ _ _ => by decide
  exact ⟨p, outs, hrun, (hdemux false).1, (hdemux true).1⟩

end VendorAmlogic.Ts
