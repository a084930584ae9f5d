import VendorAmlogic.Demux.EmuSections

/-!
# The stream of the emulated demultiplexer

`parser_thread` reads the file in pieces and parses what packets it has. The
pieces are whatever `fread` returns: the sections returned do not depend on
them. The first packet waits until the sync byte of a second one has given the
packet length.
-/

namespace VendorAmlogic.Demux.Emu

open VendorAmlogic.Lib VendorAmlogic.Demux

/-- The inner loop of `parser_thread`; filter `i` is read after each packet. -/
def parseLoop (fresh : Channel) (i : Nat) : Nat → TSParser → Trace (List Byte) TSParser
  | 0, _ => .stop
  | fuel + 1, p => do
    let (p, more) ← Trace.ofOption (parseTsPacket fresh p)
    if more then
      let p ← drainAll i p
      parseLoop fresh i fuel p
    else return p

/-- One round of `parser_thread`: `chunk` is what was read. -/
def readChunk (fresh : Channel) (i : Nat) (p : TSParser) (chunk : List Byte) :
    Trace (List Byte) TSParser :=
  let p := { p with buf := p.buf ++ chunk, fpos := p.fpos + chunk.length }
  if p.buf = [] ∨ p.buf.length < p.packetLen then pure p
  else do
    let p ← parseLoop fresh i (p.buf.length + 1) { p with parsed := 0 }
    return { p with buf := p.buf.drop p.parsed }

section
variable {fresh : Channel} {i : Nat} {p p' : TSParser}

theorem parsePacket_frame {b : List Byte} (h : parsePacket fresh p b = some p') :
    p'.buf = p.buf ∧ p'.parsed = p.parsed ∧ p'.packetLen = p.packetLen := by
  obtain ⟨cs, k, hget, hk, -⟩ := parserGetChan_spec fresh p (tsPid b)
  unfold parsePacket at h
  simp only [hget, hk] at h
  split at h
  · cases h
    exact ⟨rfl, rfl, rfl⟩
  · split at h
    · cases h
      exact ⟨rfl, rfl, rfl⟩
    · split at h
      · obtain ⟨⟨p1, c1⟩, h1, h⟩ := Option.bind_eq_some_iff.mp h
        cases h
        have hframe := parsePayload_frame h1
        exact ⟨hframe.buf, hframe.parsed, hframe.packetLen⟩
      · cases h
        exact ⟨rfl, rfl, rfl⟩

theorem drain_frame (i fuel : Nat) (p : TSParser) :
    ∃ E fs, drain i fuel p = ⟨E, some { p with filters := fs }⟩ := by
  induction fuel generalizing p with
  | zero => exact ⟨[], p.filters, rfl⟩
  | succ fuel ih =>
    unfold drain
    split
    · exact ⟨[], p.filters, rfl⟩
    · split
      · exact ⟨[], p.filters, rfl⟩
      · rename_i f _ f' d _
        obtain ⟨E, fs, h⟩ := ih { p with filters := p.filters.set i f' }
        exact ⟨d :: E, fs, by rw [Trace.emit_bind, h]⟩

theorem Feeds.of_core {q : TSParser} {bs E : List (List Byte)} (hs : SameCore p q)
    (h : Feeds fresh i q bs E) : Feeds fresh i p bs E := by
  have htrans : ∀ {r}, SameCore q r → SameCore p r := fun h' =>
    ⟨h'.channels.trans hs.channels, h'.filters.trans hs.filters⟩
  cases h with
  | nil => exact .nil p
  | stop h1 h2 => exact .stop (htrans h1) h2
  | cons h1 h2 h3 h4 h5 => exact .cons (htrans h1) h2 h3 h4 h5

/-! ## The packets in the buffer -/

variable {pid : BitVec 13} {ps : List Packet} {z future : List Byte}

/-- A packet that is all in the buffer. -/
theorem packet_in_buffer {pk : Packet} (hfit : pk.Fits)
    (h : z ++ future = ((pk :: ps).map (Packet.bytes pid)).flatten) (hlen : 188 ≤ z.length) :
    ∃ z', z = pk.bytes pid ++ z' ∧ z' ++ future = (ps.map (Packet.bytes pid)).flatten := by
  have hb := hfit.length_bytes pid
  rw [List.map_cons, List.flatten_cons] at h
  have h1 : z.take 188 = pk.bytes pid := by
    have := congrArg (List.take 188) h
    rwa [List.take_append_of_le_length hlen, List.take_left' hb] at this
  have h2 : z.drop 188 ++ future = (ps.map (Packet.bytes pid)).flatten := by
    have := congrArg (List.drop 188) h
    rwa [List.drop_append_of_le_length hlen, List.drop_left' hb] at this
  exact ⟨z.drop 188, by rw [← h1, List.take_append_drop], h2⟩

/-- The next byte of the stream is a sync byte. -/
theorem sync_in_buffer (h : z ++ future = (ps.map (Packet.bytes pid)).flatten) (hz : z ≠ []) :
    ∃ w, z = 0x47 :: w := by
  cases ps with
  | nil => exact absurd (List.append_eq_nil_iff.mp h).1 hz
  | cons pk ps =>
    obtain ⟨x, w, rfl⟩ := List.exists_cons_of_ne_nil hz
    rw [List.map_cons, List.flatten_cons, List.cons_append] at h
    have hx : x = 0x47 := (List.cons.inj h).1
    exact ⟨w, by rw [hx]⟩

/-- The packet length is known, or more than one packet is to come. -/
def Paced (p : TSParser) (n : Nat) : Prop := p.packetLen = 188 ∨ (p.packetLen = 0 ∧ n ≠ 1)

/-- The parser waits for more of the `n` packets to come. -/
def Waiting (p : TSParser) (left n : Nat) : Prop :=
  (p.packetLen = 188 ∧ left < 188) ∨ (p.packetLen = 0 ∧ left ≤ 188 ∧ n ≠ 1)

theorem Waiting.paced {left n : Nat} (h : Waiting p left n) : Paced p n := by
  rcases h with ⟨h, -⟩ | ⟨h, -, hn⟩
  · exact .inl h
  · exact .inr ⟨h, hn⟩

/-- The packet length, with a packet's start in front. -/
theorem detectLen_eq (hfit : ∀ pk ∈ ps, pk.Fits) (hp : Paced p ps.length)
    (hs : z ++ future = (ps.map (Packet.bytes pid)).flatten) :
    detectLen p z = if p.packetLen = 188 ∨ 188 < z.length then 188 else 0 := by
  rcases hp with hp | ⟨hp, -⟩
  · simp [detectLen, hp]
  · by_cases hz : 188 < z.length
    · have h47 : z.getD 188 0 = 0x47 := by
        cases ps with
        | nil => simp [(List.append_eq_nil_iff.mp hs).1] at hz
        | cons pk ps =>
          have hfit1 := hfit pk List.mem_cons_self
          obtain ⟨z', rfl, hs'⟩ := packet_in_buffer hfit1 hs (by omega)
          have hb := hfit1.length_bytes pid
          rw [List.length_append] at hz
          obtain ⟨w, rfl⟩ := sync_in_buffer hs' (List.ne_nil_of_length_pos (by omega))
          rw [List.getD_eq_getElem?_getD, List.getElem?_append_right (by omega), hb]
          rfl
      rw [detectLen, if_neg (by simp [hp]), if_pos ⟨hz, h47⟩, if_pos (.inr hz)]
    · simp [detectLen, hp, hz, show ¬ 204 < z.length by omega]

/-- **One call of `parse_ts_packet`**: it waits, or parses the next packet. -/
theorem parseTsPacket_cases (fresh : Channel) (hfit : ∀ pk ∈ ps, pk.Fits) (hp : Paced p ps.length)
    (hz : p.buf.drop p.parsed = z) (hs : z ++ future = (ps.map (Packet.bytes pid)).flatten) :
    (∃ p', parseTsPacket fresh p = some (p', false) ∧ SameCore p p' ∧ p'.buf.drop p'.parsed = z ∧
      Waiting p' z.length ps.length) ∨
    ∃ pk ps' z' q, ps = pk :: ps' ∧ z = pk.bytes pid ++ z' ∧
      z' ++ future = (ps'.map (Packet.bytes pid)).flatten ∧ SameCore p q ∧ q.packetLen = 188 ∧
      q.buf = p.buf ∧ q.parsed = p.parsed ∧
      parseTsPacket fresh p = (parsePacket fresh q (pk.bytes pid ++ z')).map
        fun r => ({ r with parsed := r.parsed + r.packetLen }, true) := by
  by_cases hnil : z = []
  · subst hnil
    refine .inl ⟨{ p with parsed := p.buf.length }, ?_, ⟨rfl, rfl⟩, by simp, ?_⟩
    · unfold parseTsPacket
      rw [hz]
      rfl
    · rcases hp with hp | ⟨hp, hn⟩
      · exact .inl ⟨hp, by simp⟩
      · exact .inr ⟨hp, by simp, hn⟩
  · obtain ⟨w, hw⟩ := sync_in_buffer hs hnil
    have hfind : z.findIdx? (· == 0x47) = some 0 := by rw [hw]; rfl
    have hdet := detectLen_eq hfit hp hs
    have hunf : parseTsPacket fresh p =
        if detectLen p z = 0 then some ({ p with packetLen := detectLen p z }, false)
        else if z.length < detectLen p z then some ({ p with packetLen := detectLen p z }, false)
        else (parsePacket fresh { p with packetLen := detectLen p z } z).map
          fun r => ({ r with parsed := r.parsed + r.packetLen }, true) := by
      unfold parseTsPacket
      rw [hz, hfind]
      simp only [Nat.add_zero, hz, Option.map_eq_bind]
      rfl
    rw [hunf, hdet]
    by_cases hlen : p.packetLen = 188 ∨ 188 < z.length
    · rw [if_pos hlen, if_neg (by omega)]
      by_cases hlt : z.length < 188
      · rw [if_pos hlt]
        exact .inl ⟨_, rfl, ⟨rfl, rfl⟩, hz, .inl ⟨rfl, hlt⟩⟩
      · rw [if_neg hlt]
        cases ps with
        | nil => exact absurd (List.append_eq_nil_iff.mp hs).1 hnil
        | cons pk ps =>
          obtain ⟨z', h1, h2⟩ := packet_in_buffer (hfit pk List.mem_cons_self) hs (by omega)
          refine .inr ⟨pk, ps, z', { p with packetLen := 188 }, rfl, h1, h2, ⟨rfl, rfl⟩, rfl, rfl, rfl, ?_⟩
          rw [h1]
    · rw [if_neg hlen, if_pos rfl]
      obtain ⟨h1, h2⟩ := not_or.mp hlen
      refine .inl ⟨_, rfl, ⟨rfl, rfl⟩, hz, .inr ⟨rfl, by omega, ?_⟩⟩
      rcases hp with hp | ⟨-, hn⟩
      · exact absurd hp h1
      · exact hn

/-! ## Reading the file -/

/-- **The inner loop** parses the packets in the buffer, each once; `k` is what
comes after it. -/
theorem feeds_loop {fuel : Nat} {k : TSParser → Trace (List Byte) TSParser}
    (hfit : ∀ pk ∈ ps, pk.Fits) (hp : Paced p ps.length) (hz : p.buf.drop p.parsed = z)
    (hs : z ++ future = (ps.map (Packet.bytes pid)).flatten) (hfuel : z.length < fuel)
    (hk : ∀ p' (ps' : List Packet) z', (∀ pk ∈ ps', pk.Fits) → p'.buf.drop p'.parsed = z' →
      z' ++ future = (ps'.map (Packet.bytes pid)).flatten → Waiting p' z'.length ps'.length →
      Feeds fresh i p' (ps'.map (Packet.bytes pid)) (k p').events) :
    Feeds fresh i p (ps.map (Packet.bytes pid)) (parseLoop fresh i fuel p >>= k).events := by
  induction fuel generalizing p ps z with
  | zero => omega
  | succ fuel ih =>
    rcases parseTsPacket_cases fresh hfit hp hz hs with
      ⟨p', heq, hcore, hz', hw⟩ | ⟨pk, ps', z', q, rfl, rfl, hs', hcore, hq1, hq2, hq3, heq⟩
    · have hloop : parseLoop fresh i (fuel + 1) p = pure p' := by
        unfold parseLoop
        rw [heq]
        rfl
      rw [hloop, Trace.pure_bind]
      exact .of_core hcore (hk p' ps z hfit hz' hs hw)
    · cases hpk : parsePacket fresh q (pk.bytes pid ++ z') with
      | none =>
        have hloop : parseLoop fresh i (fuel + 1) p = .stop := by
          unfold parseLoop
          rw [heq, hpk]
          rfl
        rw [hloop, Trace.stop_bind]
        exact .stop hcore hpk
      | some r =>
        obtain ⟨hr1, hr2, hr3⟩ := parsePacket_frame hpk
        obtain ⟨E, fs, hd⟩ := drain_frame i
          (({ r with parsed := r.parsed + r.packetLen } : TSParser).filters[i]?.elim 0 Filter.bytes)
          { r with parsed := r.parsed + r.packetLen }
        have hloop : parseLoop fresh i (fuel + 1) p =
            (⟨E, some { r with parsed := r.parsed + r.packetLen, filters := fs }⟩ :
              Trace (List Byte) TSParser) >>= parseLoop fresh i fuel := by
          conv_lhs => unfold parseLoop
          rw [heq, hpk, Option.map_some, Trace.ofOption_some, Trace.pure_bind, ← hd]
          rfl
        rw [hloop, Trace.bind_assoc, Trace.bind_of_some rfl]
        have hfit1 := hfit pk List.mem_cons_self
        have hb := hfit1.length_bytes pid
        refine .cons (s := { r with parsed := r.parsed + r.packetLen }) hcore hpk ⟨rfl, rfl⟩ hd (ih (z := z')
          (fun x hx => hfit x (List.mem_cons_of_mem _ hx)) (.inl (hr3.trans hq1)) ?_ hs' ?_)
        · change r.buf.drop (r.parsed + r.packetLen) = z'
          rw [hr1, hr2, hr3, hq1, hq2, hq3, ← List.drop_drop, hz, ← hb, List.drop_left]
        · rw [List.length_append] at hfuel
          omega

/-- The file in pieces: the packets are parsed, each once. -/
theorem feeds_readChunk {chunks : List (List Byte)} (hfit : ∀ pk ∈ ps, pk.Fits)
    (hw : Waiting p p.buf.length ps.length)
    (hs : p.buf ++ chunks.flatten = (ps.map (Packet.bytes pid)).flatten) :
    Feeds fresh i p (ps.map (Packet.bytes pid))
      (Trace.feed (readChunk fresh i) p chunks).events := by
  induction chunks generalizing p ps with
  | nil =>
    have hlen := congrArg List.length hs
    have hnil : ps = [] := by
      cases ps with
      | nil => rfl
      | cons pk ps =>
        have hb := (hfit pk List.mem_cons_self).length_bytes pid
        simp only [List.flatten_nil, List.append_nil, List.map_cons, List.flatten_cons,
          List.length_append] at hlen
        rcases hw with ⟨-, h⟩ | ⟨-, h, hn⟩
        · omega
        · cases ps with
          | nil => exact absurd rfl hn
          | cons pk' ps =>
            have hb' := (hfit pk' (by simp)).length_bytes pid
            simp only [List.map_cons, List.flatten_cons, List.length_append] at hlen
            omega
    subst hnil
    exact .nil p
  | cons chunk chunks ih =>
    rw [List.flatten_cons, ← List.append_assoc] at hs
    unfold Trace.feed
    by_cases hlt : p.buf ++ chunk = [] ∨ (p.buf ++ chunk).length < p.packetLen
    · have hread : readChunk fresh i p chunk =
          pure { p with buf := p.buf ++ chunk, fpos := p.fpos + chunk.length } := if_pos hlt
      rw [hread, Trace.pure_bind]
      refine .of_core (q := { p with buf := p.buf ++ chunk, fpos := p.fpos + chunk.length }) ⟨rfl, rfl⟩
        (ih hfit ?_ hs)
      rcases hw with ⟨h, -⟩ | ⟨h, -, hn⟩
      · refine .inl ⟨h, ?_⟩
        rcases hlt with hlt | hlt
        · simp [hlt]
        · rw [h] at hlt
          exact hlt
      · refine .inr ⟨h, ?_, hn⟩
        rcases hlt with hlt | hlt
        · simp [hlt]
        · simp [h] at hlt
    · have hread : readChunk fresh i p chunk =
          parseLoop fresh i ((p.buf ++ chunk).length + 1)
            { p with buf := p.buf ++ chunk, fpos := p.fpos + chunk.length, parsed := 0 } >>=
          fun p => pure { p with buf := p.buf.drop p.parsed } := if_neg hlt
      rw [hread, Trace.bind_assoc]
      refine .of_core
        (q := { p with buf := p.buf ++ chunk, fpos := p.fpos + chunk.length, parsed := 0 }) ⟨rfl, rfl⟩
        (feeds_loop hfit hw.paced rfl hs (Nat.lt_succ_self _) fun p' ps' z' hfit' hz hs' hw' => ?_)
      rw [Trace.pure_bind]
      refine .of_core (q := { p' with buf := p'.buf.drop p'.parsed }) ⟨rfl, rfl⟩ (ih hfit' ?_ ?_)
      · change Waiting _ (p'.buf.drop p'.parsed).length ps'.length
        rw [hz]
        exact hw'
      · change p'.buf.drop p'.parsed ++ _ = _
        rw [hz]
        exact hs'

/-! ## A file of one packet -/

theorem parseTsPacket_short (fresh : Channel) (h0 : p.packetLen = 0) (hlen : p.buf.length ≤ 188) :
    ∃ p', parseTsPacket fresh p = some (p', false) ∧ p'.packetLen = 0 ∧ p'.buf = p.buf := by
  unfold parseTsPacket
  split
  · exact ⟨_, rfl, h0, rfl⟩
  · rename_i k _
    have hshort : (p.buf.drop (p.parsed + k)).length ≤ 188 := by
      rw [List.length_drop]
      omega
    have hdet : detectLen { p with parsed := p.parsed + k } (p.buf.drop (p.parsed + k)) = 0 := by
      unfold detectLen
      rw [if_neg (by simp [h0]), if_neg (by omega), if_neg (by omega)]
    refine ⟨{ p with parsed := p.parsed + k, packetLen := 0 }, ?_, rfl, rfl⟩
    dsimp only
    rw [hdet]
    rfl

/-- Without a second sync byte nothing is parsed. -/
theorem readChunk_short {chunks : List (List Byte)} (fresh : Channel) (i : Nat)
    (h0 : p.packetLen = 0) (hlen : (p.buf ++ chunks.flatten).length ≤ 188) :
    (Trace.feed (readChunk fresh i) p chunks).events = [] := by
  induction chunks generalizing p with
  | nil => rfl
  | cons chunk chunks ih =>
    rw [List.flatten_cons, ← List.append_assoc, List.length_append] at hlen
    have hstep : ∃ p', readChunk fresh i p chunk = pure p' ∧ p'.packetLen = 0 ∧
        p'.buf.length ≤ (p.buf ++ chunk).length := by
      by_cases hlt : p.buf ++ chunk = [] ∨ (p.buf ++ chunk).length < p.packetLen
      · exact ⟨_, if_pos hlt, h0, Nat.le_refl _⟩
      · obtain ⟨p', h1, h2, h3⟩ := parseTsPacket_short (p := { p with
          buf := p.buf ++ chunk, fpos := p.fpos + chunk.length, parsed := 0 }) fresh h0 (by
            change (p.buf ++ chunk).length ≤ 188
            omega)
        refine ⟨{ p' with buf := p'.buf.drop p'.parsed }, (if_neg hlt).trans ?_, h2, ?_⟩
        · unfold parseLoop
          rw [h1]
          rfl
        · change (p'.buf.drop p'.parsed).length ≤ _
          rw [List.length_drop, h3]
          exact Nat.sub_le _ _
    obtain ⟨p', h1, h2, h3⟩ := hstep
    unfold Trace.feed
    rw [h1, Trace.pure_bind]
    refine ih h2 ?_
    rw [List.length_append]
    omega

theorem length_stream (hfit : ∀ pk ∈ ps, pk.Fits) :
    (ps.map (Packet.bytes pid)).flatten.length = 188 * ps.length := by
  induction ps with
  | nil => rfl
  | cons pk ps ih =>
    rw [List.map_cons, List.flatten_cons, List.length_append, ih fun x hx => hfit x (by simp [hx]),
      (hfit pk List.mem_cons_self).length_bytes pid, List.length_cons]
    omega

/-- Read from the file in any pieces, more than one packet is what it takes. -/
theorem readChunk_outcome {chunks : List (List Byte)} (fresh : Channel) (hpid : pid ≠ 0x1FFF) (hbuf : p.buf = [])
    (h0 : p.packetLen = 0) (hl : Listening i pid.toNat [] p.filters) (hfit : ∀ pk ∈ ps, pk.Fits)
    (hleg : Legal [] (ps.map Packet.item))
    (hc : chunks.flatten = (ps.map (Packet.bytes pid)).flatten) (hn : ps.length ≠ 1) :
    Outcome fresh pid.toNat p [] (ps.map Packet.item)
      (Trace.feed (readChunk fresh i) p chunks).events := by
  refine feeds_outcome hpid hfit hl hleg (feeds_readChunk hfit (.inr ⟨h0, by simp [hbuf], hn⟩) ?_)
  rw [hbuf, List.nil_append, hc]

/-- **Sections from a file**: the packets `ps` of one PID carry the sections
`sections []`, and one filter takes every section on the PID. Read in any pieces,
with the filter emptied after each packet, exactly those sections come out, in order,
if and only if no packet does harm and the file is not a single packet with
sections. -/
theorem sections_read_iff {chunks : List (List Byte)} (hpid : pid ≠ 0x1FFF) (hbuf : p.buf = [])
    (h0 : p.packetLen = 0) (hl : Listening i pid.toNat [] p.filters) (hfit : ∀ pk ∈ ps, pk.Fits)
    (hleg : Legal [] (ps.map Packet.item))
    (hc : chunks.flatten = (ps.map (Packet.bytes pid)).flatten) :
    (Trace.feed (readChunk fresh i) p chunks).events = sections [] (ps.map Packet.item) ↔
      Intact [] (ps.map Packet.item) ∧ (ps.length = 1 → ∀ pk ∈ ps, pk.item.isStart = false) := by
  by_cases hn : ps.length = 1
  · have hquiet : (Trace.feed (readChunk fresh i) p chunks).events = [] := by
      refine readChunk_short fresh i h0 ?_
      rw [hbuf, List.nil_append, hc, length_stream hfit]
      omega
    obtain ⟨pk, rfl⟩ := List.length_eq_one_iff.mp hn
    rw [hquiet]
    simp only [List.map_cons, List.map_nil, List.length_singleton, List.mem_singleton, forall_eq,
      true_implies] at hleg ⊢
    cases hit : pk.item with
    | skip => exact ⟨fun _ => ⟨⟨trivial, trivial⟩, rfl⟩, fun _ => rfl⟩
    | cont b => rw [hit] at hleg; exact absurd rfl hleg.1
    | fin b k => rw [hit] at hleg; exact absurd rfl hleg.1
    | start r ss t =>
      rw [hit] at hleg
      refine ⟨fun h => ?_, fun h => nomatch h.2⟩
      exact absurd (congrArg List.length h) (Nat.ne_of_lt (sections_start_pos hleg))
  · have ho := readChunk_outcome fresh hpid hbuf h0 hl hfit hleg hc hn
    refine ⟨fun h => ⟨?_, fun h => absurd h hn⟩, fun h => ho.full (sync_nil _ _) h.1⟩
    by_contra hi
    exact absurd (congrArg List.length h) (Nat.ne_of_lt (ho.short (sync_nil _ _) hi))

end

/-! ### An open filter -/

/-- A parser with one section filter on `pid` that looks at no byte. -/
def openParser (pid : BitVec 16) : TSParser where
  channels := []
  filters := [emuEnableFilter (emuSetSecFilter (emuAllocFilter fun _ => 0)
    ⟨pid, fun _ => 0, fun _ => 0, fun _ => 0⟩) true]
  buf := []
  parsed := 0
  packetLen := 0
  rate := 0
  fpos := 0

def zeroChannel : Channel := ⟨0, fun _ => 0, 0, 0, .start, .sec, 0, 0⟩

theorem matchLoop_open {f : Filter} (h1 : ∀ i, f.maskandmode i = 0)
    (h2 : ∀ i, f.maskandnotmode i = 0) (h3 : f.neq = false) (b : Mem) (is : List (Fin 18)) :
    matchLoop f b is false = true := by
  induction is with
  | nil => simp [matchLoop, h3]
  | cons i is ih => simpa [matchLoop, h1, h2] using ih

theorem listening_openParser : Listening 0 (0x11 : BitVec 13).toNat [] (openParser 0x11).filters where
  filter := by
    refine ⟨_, rfl, rfl, rfl, rfl, fun b _ => ?_, by decide, by decide, rfl, by decide, rfl⟩
    exact matchLoop_open (by decide) (by decide) (by decide) b _
  first := fun j _ hj => absurd hj (Nat.not_lt_zero j)

/-- The section 42 00 01 AA in two packets: it ends before the `pointer_field` target
of the packet in which 43 00 00 starts. -/
def pointerPackets : List Packet :=
  [⟨.start [] [] (.split [0x42, 0, 1]), false, 0, some (List.replicate 179 0xFF)⟩,
    ⟨.start [0xAA] [[0x43, 0, 0]] (.stuffing 179), false, 1, none⟩]

/-- The same section with its end in a packet of its own. -/
def separatePackets : List Packet :=
  [⟨.start [] [] (.split [0x42, 0, 1]), false, 0, some (List.replicate 179 0xFF)⟩,
    ⟨.fin [0xAA] 183, false, 1, none⟩]

theorem isSection_four : IsSection [0x42, 0, 1, 0xAA] :=
  ⟨by decide, by decide, by decide, by decide⟩

theorem isSection_three : IsSection [0x43, 0, 0] := ⟨by decide, by decide, by decide, by decide⟩

theorem sections_read_separate :
    (Trace.feed (readChunk zeroChannel 0) (openParser 0x11)
      [(separatePackets.map (Packet.bytes 0x11)).flatten]).events = [[0x42, 0, 1, 0xAA]] := by
  have hfit : ∀ pk ∈ separatePackets, pk.Fits := by decide +kernel
  have hleg : Legal [] (separatePackets.map Packet.item) :=
    ⟨.inl ⟨rfl, rfl⟩, fun _ h => absurd h List.not_mem_nil, List.cons_ne_nil _ _,
      List.cons_ne_nil _ _, List.cons_ne_nil _ _, isSection_four, rfl⟩
  have hpass : Intact [] (separatePackets.map Packet.item) :=
    ⟨⟨rfl, by unfold LikePes; decide +kernel⟩, by unfold Passes; decide, trivial⟩
  exact (sections_read_iff (by decide) rfl rfl listening_openParser hfit hleg (by simp)).2
    ⟨hpass, fun h => absurd h (by decide)⟩

/-- The section that ends before the `pointer_field` target is not read. -/
theorem section_lost_before_pointer :
    (Trace.feed (readChunk zeroChannel 0) (openParser 0x11)
      [(pointerPackets.map (Packet.bytes 0x11)).flatten]).events ≠
        sections [] (pointerPackets.map Packet.item) := by
  have hfit : ∀ pk ∈ pointerPackets, pk.Fits := by decide +kernel
  have hleg : Legal [] (pointerPackets.map Packet.item) :=
    ⟨.inl ⟨rfl, rfl⟩, fun _ h => absurd h List.not_mem_nil, List.cons_ne_nil _ _,
      .inr ⟨List.cons_ne_nil _ _, List.cons_ne_nil _ _, isSection_four⟩,
      List.forall_mem_singleton.2 isSection_three, List.cons_ne_nil _ _, rfl⟩
  have ho := readChunk_outcome zeroChannel (by decide) rfl rfl listening_openParser hfit hleg
    (List.flatten_singleton) (by decide)
  have hbad : ¬ Intact [] (pointerPackets.map Packet.item) := fun h => nomatch h.2.1.1
  intro h
  exact absurd (congrArg List.length h) (Nat.ne_of_lt (ho.short (sync_nil _ _) hbad))

end VendorAmlogic.Demux.Emu
