import VendorAmlogic.Lib.Run
import VendorAmlogic.Demux.EmuStream

/-!
# The emulated demultiplexer finds its way

`parser_thread` fills its buffer, parses what packets it has and moves the
rest to the front. The packet length is found out once, from a sync byte 188
or 204 bytes behind the first one. A byte 0x47 with neither is waited for,
also when the buffer is full and no more can come.

The other threads are `filters`: they may change the filters in any way while
they hold the lock.
-/

namespace VendorAmlogic.Demux.Emu

open VendorAmlogic.Lib VendorAmlogic.Demux

/-! ## The thread -/

/-- `PARSER_BUF_SIZE`. -/
def parserBufSize : Nat := 512 * 1024

/-- `parser_reset`. -/
def parserReset (p : TSParser) : TSParser :=
  { p with packetLen := 0, buf := [], rate := 0, channels := p.channels.map chanReset }

/-- The parse loop. The inner `none` is undefined behaviour; every call that goes on takes a
packet, so the outer one is not reached with a call for each byte and one more. -/
def parsePackets (fresh : Channel) : Nat → TSParser → Option (Option TSParser)
  | 0, _ => none
  | fuel + 1, p =>
    match parseTsPacket fresh p with
    | none => some none
    | some (p, more) => if more then parsePackets fresh fuel p else some (some p)

/-- The parse loop over the buffer. -/
def parseBuffer (fresh : Channel) (p : TSParser) : Option (Option TSParser) :=
  parsePackets fresh (p.buf.length + 1) { p with parsed := 0 }

/-- What `fread` returns of the rest of the file. -/
def TSParser.fread (p : TSParser) (file : List Byte) : List Byte :=
  file.take (parserBufSize - p.buf.length)

/-- The parser with more of the file. -/
def TSParser.load (p : TSParser) (file : List Byte) : TSParser :=
  { p with buf := p.buf ++ p.fread file, fpos := p.fpos + (p.fread file).length }

/-- A round of `parser_thread` with a file. -/
def parseRound (fresh : Channel) (p : TSParser) (file : List Byte) : Option TSParser :=
  if p.fread file = [] then some p
  else if (p.load file).buf.length < p.packetLen then some (p.load file)
  else (parseBuffer fresh (p.load file)).join.map fun p => { p with buf := p.buf.drop p.parsed }

inductive ThreadInput where
  | read (file : List Byte)
  | rewind
  | filters (fs : List Filter)

def threadStep (fresh : Channel) (s : Option TSParser) (i : ThreadInput) : Option TSParser × Unit :=
  (s.bind fun p => match i with
    | .read file => parseRound fresh p file
    | .rewind => some { parserReset p with fpos := 0 }
    | .filters fs => some { p with filters := fs }, ())

/-- The parser when the thread starts. -/
def threadStart (filters : List Filter) : TSParser := ⟨[], filters, [], 0, 0, 0, 0⟩

/-! ## Progress -/

/-- The loop ends, and unless its behaviour is undefined something was consumed. -/
def Consumes (fresh : Channel) (p : TSParser) : Prop :=
  ∃ r, parseBuffer fresh p = some r ∧ ∀ p' ∈ r, 0 < p'.parsed

/-- With the packet length still unknown the buffer starts with a byte 0x47 that has no sync byte
188 or 204 bytes behind it. -/
def Stray (p : TSParser) : Prop :=
  p.packetLen = 0 ∧ p.buf.getD 0 0 = 0x47 ∧ p.buf.getD 188 0 ≠ 0x47 ∧ p.buf.getD 204 0 ≠ 0x47

/-- The round parses a buffer that is full. -/
def ParsesFull (s : Option TSParser) (i : ThreadInput) (p : TSParser) : Prop :=
  ∃ q file, s = some q ∧ i = .read file ∧ q.fread file ≠ [] ∧ p = q.load file ∧
    p.buf.length = parserBufSize

def Progresses (fresh : Channel) (s : Option TSParser) (i : ThreadInput) : Prop :=
  ∀ p, ParsesFull s i p → Consumes fresh p

def StartsInSync (s : Option TSParser) (i : ThreadInput) : Prop := ∀ p, ParsesFull s i p → ¬ Stray p

section
variable {fresh : Channel} {p p' : TSParser}

/-- The packet lengths there are. -/
def KnownLen (n : Nat) : Prop := n = 0 ∨ n = 188 ∨ n = 204

theorem knownLen_detect (h : KnownLen p.packetLen) (b : List Byte) : KnownLen (detectLen p b) := by
  unfold detectLen
  split
  · exact h
  · split
    · exact .inr (.inl rfl)
    · split
      · exact .inr (.inr rfl)
      · exact .inl rfl

/-- **One call of `parse_ts_packet`**: no sync byte, a packet that is waited for, or a packet. -/
theorem parseTsPacket_inv {more : Bool} (h : parseTsPacket fresh p = some (p', more)) :
    p'.buf = p.buf ∧
      (((p.buf.drop p.parsed).findIdx? (· == 0x47) = none ∧ more = false ∧
          p'.packetLen = p.packetLen ∧ p'.parsed = p.buf.length) ∨
        ∃ k, (p.buf.drop p.parsed).findIdx? (· == 0x47) = some k ∧
          p'.packetLen = detectLen p (p.buf.drop (p.parsed + k)) ∧
          ((more = false ∧ p'.parsed = p.parsed + k ∧
              (p'.packetLen = 0 ∨ (p.buf.drop (p.parsed + k)).length < p'.packetLen)) ∨
            (more = true ∧ p'.parsed = p.parsed + k + p'.packetLen ∧ p'.packetLen ≠ 0 ∧
              p'.packetLen ≤ (p.buf.drop (p.parsed + k)).length))) := by
  unfold parseTsPacket at h
  split at h
  · rename_i hnone
    obtain ⟨rfl, rfl⟩ := Prod.mk.inj (Option.some.inj h)
    exact ⟨rfl, .inl ⟨hnone, rfl, rfl, rfl⟩⟩
  · rename_i k hk
    dsimp only at h
    split at h
    · rename_i hzero
      obtain ⟨rfl, rfl⟩ := Prod.mk.inj (Option.some.inj h)
      exact ⟨rfl, .inr ⟨k, hk, rfl, .inl ⟨rfl, rfl, .inl hzero⟩⟩⟩
    · rename_i hzero
      split at h
      · rename_i hshort
        obtain ⟨rfl, rfl⟩ := Prod.mk.inj (Option.some.inj h)
        exact ⟨rfl, .inr ⟨k, hk, rfl, .inl ⟨rfl, rfl, .inr hshort⟩⟩⟩
      · rename_i hshort
        obtain ⟨q, hq, h⟩ := Option.bind_eq_some_iff.mp h
        obtain ⟨hb, hp, hl⟩ := parsePacket_frame hq
        obtain ⟨rfl, rfl⟩ := Prod.mk.inj (Option.some.inj h)
        refine ⟨hb, .inr ⟨k, hk, hl, .inr ⟨rfl, ?_, hl ▸ hzero, hl ▸ not_lt.1 hshort⟩⟩⟩
        exact congrArg (· + q.packetLen) hp

theorem parseTsPacket_knownLen {more : Bool} (hk : KnownLen p.packetLen)
    (h : parseTsPacket fresh p = some (p', more)) : KnownLen p'.packetLen := by
  obtain ⟨-, ⟨-, -, hlen, -⟩ | ⟨k, -, hlen, -⟩⟩ := parseTsPacket_inv h
  · exact hlen ▸ hk
  · exact hlen ▸ knownLen_detect hk _

/-- The loop ends behind where it began. -/
theorem parsePackets_ends (fresh : Channel) {fuel : Nat} (hk : KnownLen p.packetLen) (hp : p.parsed ≤ p.buf.length)
    (hf : p.buf.length - p.parsed < fuel) :
    ∃ r, parsePackets fresh fuel p = some r ∧
      ∀ p' ∈ r, p.parsed ≤ p'.parsed ∧ p'.buf = p.buf ∧ KnownLen p'.packetLen := by
  induction fuel generalizing p with
  | zero => omega
  | succ fuel ih =>
    cases h : parseTsPacket fresh p with
    | none => exact ⟨none, by rw [parsePackets, h], by simp⟩
    | some r =>
      obtain ⟨q, more⟩ := r
      have hq := parseTsPacket_knownLen hk h
      obtain ⟨hbuf, ⟨-, rfl, hlen, hpos⟩ | ⟨k, -, hlen, ⟨rfl, hpos, -⟩ | ⟨rfl, hpos, hne, hle⟩⟩⟩ :=
        parseTsPacket_inv h
      · refine ⟨some q, by rw [parsePackets, h]; rfl, fun p' hp' => ?_⟩
        obtain rfl := Option.some.inj hp'
        exact ⟨hpos ▸ hp, hbuf, hq⟩
      · refine ⟨some q, by rw [parsePackets, h]; rfl, fun p' hp' => ?_⟩
        obtain rfl := Option.some.inj hp'
        exact ⟨hpos ▸ Nat.le_add_right _ _, hbuf, hq⟩
      · rw [List.length_drop] at hle
        obtain ⟨r, hr, hall⟩ := ih (p := q) hq (by rw [hpos, hbuf]; omega) (by rw [hpos, hbuf]; omega)
        refine ⟨r, by rw [parsePackets, h]; exact hr, fun p' hp' => ?_⟩
        obtain ⟨h1, h2, h3⟩ := hall p' hp'
        exact ⟨by omega, h2.trans hbuf, h3⟩

/-- A loop whose first call does not stop at the front consumes something. -/
theorem parsePackets_consumes {fuel : Nat} (hk : KnownLen p.packetLen) (hp : p.parsed = 0)
    (hf : p.buf.length < fuel)
    (hfront : ∀ p', parseTsPacket fresh p = some (p', false) → 0 < p'.parsed) :
    ∃ r, parsePackets fresh fuel p = some r ∧ ∀ p' ∈ r, 0 < p'.parsed := by
  obtain ⟨fuel, rfl⟩ := Nat.exists_eq_add_one_of_ne_zero (n := fuel) (by omega)
  cases h : parseTsPacket fresh p with
  | none => exact ⟨none, by rw [parsePackets, h], by simp⟩
  | some r =>
    obtain ⟨q, more⟩ := r
    cases more with
    | false =>
      refine ⟨some q, by rw [parsePackets, h]; rfl, fun p' hp' => ?_⟩
      obtain rfl := Option.some.inj hp'
      exact hfront q h
    | true =>
      obtain ⟨hbuf, ⟨-, hf, -⟩ | ⟨k, -, -, ⟨hf, -⟩ | ⟨-, hpos, hlen, hle⟩⟩⟩ := parseTsPacket_inv h
      · exact nomatch hf
      · exact nomatch hf
      · rw [List.length_drop] at hle
        obtain ⟨r, hr, hall⟩ := parsePackets_ends fresh (parseTsPacket_knownLen hk h)
          (show q.parsed ≤ q.buf.length by rw [hpos, hbuf]; omega)
          (show q.buf.length - q.parsed < fuel by rw [hpos, hbuf]; omega)
        exact ⟨r, by rw [parsePackets, h]; exact hr, fun p' hp' => by
          have := (hall p' hp').1
          omega⟩

theorem findIdx_zero {b : List Byte} (hne : b ≠ []) :
    b.findIdx? (· == 0x47) = some 0 ↔ b.getD 0 0 = 0x47 := by
  cases b with
  | nil => exact absurd rfl hne
  | cons a b =>
    rw [List.findIdx?_cons, List.getD_cons_zero]
    by_cases ha : a = 0x47
    · simp [ha]
    · rw [if_neg (by simpa using ha)]
      exact iff_of_false (by simp) ha

/-- The packet length of a full buffer that starts with a sync byte. -/
theorem detectLen_eq_zero (hfull : p.buf.length = parserBufSize) :
    detectLen p p.buf = 0 ↔
      p.packetLen = 0 ∧ p.buf.getD 188 0 ≠ 0x47 ∧ p.buf.getD 204 0 ≠ 0x47 := by
  have h188 : p.buf.length > 188 := by rw [hfull, parserBufSize]; omega
  have h204 : p.buf.length > 204 := by rw [hfull, parserBufSize]; omega
  unfold detectLen
  by_cases h0 : p.packetLen = 0
  · rw [if_neg (not_not.2 h0)]
    by_cases h1 : p.buf.getD 188 0 = 0x47
    · rw [if_pos ⟨h188, h1⟩]
      exact iff_of_false (by decide) fun h => h.2.1 h1
    · rw [if_neg fun h => h1 h.2]
      by_cases h2 : p.buf.getD 204 0 = 0x47
      · rw [if_pos ⟨h204, h2⟩]
        exact iff_of_false (by decide) fun h => h.2.2 h2
      · rw [if_neg fun h => h2 h.2]
        exact iff_of_true rfl ⟨h0, h1, h2⟩
  · rw [if_pos h0]
    exact iff_of_false h0 fun h => h0 h.1

/-- **A full buffer is stuck on a stray sync byte, and on nothing else.** -/
theorem consumes_iff (hk : KnownLen p.packetLen) (hfull : p.buf.length = parserBufSize) :
    Consumes fresh p ↔ ¬ Stray p := by
  have hlong : 204 < p.buf.length := by rw [hfull, parserBufSize]; omega
  have hne : p.buf ≠ [] := by
    intro hnil
    simp [hnil] at hlong
  constructor
  · rintro ⟨r, hr, hall⟩ ⟨h0, h1, h2, h3⟩
    have hdet : detectLen p p.buf = 0 := (detectLen_eq_zero hfull).2 ⟨h0, h2, h3⟩
    have hstep : parseTsPacket fresh { p with parsed := 0 } =
        some ({ p with parsed := 0, packetLen := 0 }, false) := by
      unfold parseTsPacket
      simp only [List.drop_zero, (findIdx_zero hne).2 h1, Nat.add_zero]
      rw [show detectLen { p with parsed := 0 } p.buf = 0 from hdet]
      rfl
    rw [parseBuffer, parsePackets, hstep] at hr
    obtain rfl := Option.some.inj hr
    exact absurd (hall _ rfl) (Nat.lt_irrefl 0)
  · intro hstray
    refine parsePackets_consumes (p := { p with parsed := 0 }) hk rfl (Nat.lt_succ_self _) ?_
    · intro q hq
      obtain ⟨-, ⟨-, -, -, hpos⟩ | ⟨k, hidx, hlen, ⟨-, hpos, hwait⟩ | ⟨hf, -⟩⟩⟩ := parseTsPacket_inv hq
      · rw [hpos]
        exact Nat.lt_of_le_of_lt (Nat.zero_le _) hlong
      · simp only [List.drop_zero, Nat.zero_add] at hidx hlen hwait hpos
        by_contra hzero
        obtain rfl : k = 0 := by omega
        rw [List.drop_zero] at hlen hwait
        have hdet : q.packetLen = detectLen p p.buf := hlen
        have hknown := knownLen_detect hk p.buf
        rw [← hdet] at hknown
        rcases hwait with hwait | hwait
        · rw [hdet, detectLen_eq_zero hfull] at hwait
          exact hstray ⟨hwait.1, (findIdx_zero hne).1 hidx, hwait.2.1, hwait.2.2⟩
        · rcases hknown with h | h | h <;> omega
      · exact nomatch hf

end

/-! ## Runs -/

/-- What the thread keeps of its parser. -/
def ThreadInv (s : Option TSParser) : Prop :=
  ∀ p ∈ s, KnownLen p.packetLen

theorem threadInv_step (fresh : Channel) {s : Option TSParser} (hs : ThreadInv s) (i : ThreadInput) :
    ThreadInv (threadStep fresh s i).1 := by
  intro p' hp'
  obtain ⟨p, rfl, h⟩ := Option.bind_eq_some_iff.mp hp'
  have hk := hs p rfl
  cases i with
  | rewind =>
    obtain rfl := Option.some.inj h
    exact .inl rfl
  | filters fs =>
    obtain rfl := Option.some.inj h
    exact hk
  | read file =>
    simp only [parseRound] at h
    split at h
    · obtain rfl := Option.some.inj h
      exact hk
    · split at h
      · obtain rfl := Option.some.inj h
        exact hk
      · obtain ⟨r, hr, hall⟩ := parsePackets_ends fresh (p := { p.load file with parsed := 0 }) hk
          (Nat.zero_le _) (Nat.lt_succ_self (p.load file).buf.length)
        rw [parseBuffer, hr] at h
        obtain ⟨q, hq, rfl⟩ := Option.map_eq_some_iff.mp h
        exact (hall q hq).2.2

/-- **The parse loop makes progress with a full buffer in exactly the runs in which no full buffer
starts with a stray sync byte while the packet length is unknown.** -/
theorem progresses_iff (fresh : Channel) (filters : List Filter) (is : List ThreadInput) :
    Each (Progresses fresh) (threadStep fresh) (some (threadStart filters)) is ↔
      Each StartsInSync (threadStep fresh) (some (threadStart filters)) is := by
  have hiff : ∀ s i, ThreadInv s → (Progresses fresh s i ↔ StartsInSync s i) := by
    intro s i hs
    refine forall₂_congr fun p hp => ?_
    obtain ⟨q, file, rfl, -, -, rfl, hfull⟩ := hp
    exact consumes_iff (hs q rfl) hfull
  have hstart : ThreadInv (some (threadStart filters)) := by
    rintro p hp
    obtain rfl := Option.some.inj hp
    exact .inl rfl
  exact each_congr (fun _ i hs => threadInv_step fresh hs i) hiff hstart

/-- A file that starts with a byte 0x47 and has no other one. -/
def strayFile : List Byte := 0x47 :: List.replicate (parserBufSize - 1) 0

theorem stray_strayFile (filters : List Filter) : Stray ((threadStart filters).load strayFile) := by
  have hread : ((threadStart filters).load strayFile).buf = strayFile := by
    change [] ++ strayFile.take (parserBufSize - 0) = strayFile
    rw [List.nil_append, List.take_of_length_le]
    rw [strayFile, List.length_cons, List.length_replicate, parserBufSize]
  have hzero : ∀ n, (List.replicate (parserBufSize - 1) (0 : Byte)).getD n 0 = 0 := by
    intro n
    rw [List.getD_eq_getElem?_getD, List.getElem?_replicate]
    split <;> rfl
  refine ⟨rfl, ?_, ?_, ?_⟩
  · rw [hread]
    rfl
  · rw [hread, strayFile, List.getD_cons_succ, hzero]
    decide
  · rw [hread, strayFile, List.getD_cons_succ, hzero]
    decide

/-- The whole file is in the buffer, and nothing of it is consumed. -/
theorem progresses_strayFile :
    ¬ ∀ (fresh : Channel) (filters : List Filter) (is : List ThreadInput),
      Each (Progresses fresh) (threadStep fresh) (some (threadStart filters)) is := by
  intro h
  have hfull : ((threadStart []).load strayFile).buf.length = parserBufSize := by
    change ([] ++ strayFile.take (parserBufSize - 0)).length = parserBufSize
    rw [List.nil_append, List.length_take, strayFile, List.length_cons, List.length_replicate,
      parserBufSize]
    rfl
  have hne : (threadStart []).fread strayFile ≠ [] := by
    change (strayFile.take (parserBufSize - 0)) ≠ []
    rw [strayFile, parserBufSize, List.take_succ_cons]
    exact List.cons_ne_nil _ _
  have hprog := (h zeroChannel [] [.read strayFile]).1 _
    ⟨threadStart [], strayFile, rfl, rfl, hne, rfl, hfull⟩
  exact (consumes_iff (.inl rfl) hfull).1 hprog (stray_strayFile [])

end VendorAmlogic.Demux.Emu
