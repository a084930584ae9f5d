import VendorAmlogic.Demux.EmuProgress

/-!
# The bit rate of the emulated demultiplexer

The first time stamp other than 0 of a PID and its place in the file are kept;
each later one gives a rate, the bytes since then over the milliseconds since
then. `Meter` follows the PES packets of a PID through their payloads: the
bytes of a header not yet looked at, and the first time stamp.
-/

namespace VendorAmlogic.Demux.Emu

open VendorAmlogic.Lib VendorAmlogic.Demux

/-! ## The packets of a PID -/

/-- The payload of a packet, and where the parser is in the file. -/
structure PesInput where
  data : List Byte
  start : Bool
  fpos : Int
  buf : List Byte
  parsed : Nat
  filters : List Filter

/-- The place of the packet in the file. -/
def PesInput.pos (i : PesInput) : Int := i.fpos - i.buf.length + i.parsed

/-- The time stamp in the first bytes of a PES packet. -/
def ptsOf (head : List Byte) : Option Nat := parsePts fun k => head.getD k 0

/-- `head` are the bytes of a PES packet whose time stamp is still to come, `first` is the first
time stamp other than 0 with its place. -/
structure Meter where
  head : Option (List Byte) := none
  first : Option (Nat × Int) := none

/-- The bytes of the PES packet with a payload. -/
def Meter.gather (m : Meter) (i : PesInput) : Option (List Byte) :=
  if i.start then some i.data else m.head.map (· ++ i.data)

/-- The time stamp that a payload completes. -/
def Meter.stamp (m : Meter) (i : PesInput) : Option Nat :=
  match m.gather i with
  | none => none
  | some head => if head.length < 14 then none else ptsOf head

/-- The first time stamp other than 0. -/
def keepFirst (first : Option (Nat × Int)) (stamp : Option Nat) (pos : Int) : Option (Nat × Int) :=
  match first, stamp with
  | none, some pts => if pts = 0 then none else some (pts, pos)
  | first, _ => first

def Meter.next (m : Meter) (i : PesInput) : Meter where
  head := (m.gather i).filter (·.length < 14)
  first := keepFirst m.first (m.stamp i) i.pos

/-- The parser and the channel of the PID, with the meter beside them. -/
structure RateState where
  code : Option (TSParser × Channel)
  meter : Meter

def rateStep (s : RateState) (i : PesInput) : RateState × Unit :=
  (⟨s.code.bind fun (p, c) => parsePayload
      { p with fpos := i.fpos, buf := i.buf, parsed := i.parsed, filters := i.filters } c i.data i.start,
    s.meter.next i⟩, ())

/-- A payload of a transport packet that carries PES packets. -/
def IsPes (s : RateState) (i : PesInput) : Prop :=
  i.data.length ≤ 184 ∧ ∀ head, s.meter.gather i = some head → head.take 3 <+: [0, 0, 1]

/-- The time stamp is before the first one or 90 ticks behind it, and a rate that is asked for has
room in an `int`, as has the number of bytes. -/
def SpacedAt (first : Option (Nat × Int)) (stamp : Option Nat) (pos : Int) : Prop :=
  ∀ pts t place, stamp = some pts → first = some (t, place) →
    (pts < t ∨ t + 90 ≤ pts) ∧
      (t + 90 ≤ pts → place ≤ pos → pos - place < 2 ^ 31 ∧
        (pos - place) * 1000 / ((pts - t) / 90 : Nat) < 2 ^ 31)

/-- A time stamp that is `d ≥ 90` ticks and `b` bytes behind the first one gives the rate
`b * 1000 / (d / 90)`. -/
def RateAt (first : Option (Nat × Int)) (stamp : Option Nat) (pos rate : Int) : Prop :=
  ∀ pts t place, stamp = some pts → first = some (t, place) → t + 90 ≤ pts → place ≤ pos →
    rate = (pos - place) * 1000 / ((pts - t) / 90 : Nat)

def Spaced (s : RateState) (i : PesInput) : Prop :=
  SpacedAt s.meter.first (s.meter.stamp i) i.pos

/-- Nothing is divided by zero, and the rate left behind is right. -/
def RateRight (s : RateState) (i : PesInput) : Prop :=
  ∃ p c, (rateStep s i).1.code = some (p, c) ∧
    RateAt s.meter.first (s.meter.stamp i) i.pos p.rate

/-! ## Time stamps -/

theorem parsePts_lt {b : Mem} {pts : Nat} (h : parsePts b = some pts) : pts < 2 ^ 33 := by
  unfold parsePts at h
  split at h
  · exact nomatch h
  · split at h
    · exact nomatch h
    · obtain rfl := Option.some.inj h
      have hpair : ∀ x y : Byte, x.toNat <<< 7 ||| y.toNat >>> 1 < 2 ^ 15 := by
        intro x y
        refine Nat.or_lt_two_pow ?_ ?_
        · have := x.isLt
          rw [Nat.shiftLeft_eq]
          omega
        · have := y.isLt
          rw [Nat.shiftRight_eq_div_pow]
          omega
      have h1 : (b 9).toNat >>> 1 &&& 7 < 2 ^ 3 := Nat.and_lt_two_pow _ (by omega)
      have h2 := hpair (b 10) (b 11)
      have h3 := hpair (b 12) (b 13)
      refine Nat.or_lt_two_pow (Nat.or_lt_two_pow ?_ ?_) ?_
      · rw [Nat.shiftLeft_eq]
        omega
      · rw [Nat.shiftLeft_eq]
        omega
      · omega

theorem parsePts_congr {b b' : Mem} (h : ∀ k < 14, b k = b' k) : parsePts b = parsePts b' := by
  unfold parsePts
  simp only [h 3 (by omega), h 7 (by omega), h 9 (by omega), h 10 (by omega), h 11 (by omega),
    h 12 (by omega), h 13 (by omega)]

/-- The bytes of a channel that has a whole header. -/
theorem parsePts_held {c : Channel} {head : List Byte} (hh : c.held = head) (h : 14 ≤ head.length) :
    parsePts c.buf = ptsOf head :=
  parsePts_congr fun _ hk => Channel.buf_eq hh (by omega)

/-! ## The rate -/

/-- The channel has kept the first time stamp. -/
def Refers (c : Channel) : Option (Nat × Int) → Prop
  | none => c.pts = 0
  | some (first, place) => c.pts = first ∧ first ≠ 0 ∧ first < 2 ^ 33 ∧ c.offset = i32 place

theorem Refers.congr {c c' : Channel} {first : Option (Nat × Int)} (h : Refers c first)
    (h1 : c'.pts = c.pts) (h2 : c'.offset = c.offset) : Refers c' first := by
  cases first with
  | none => exact h1.trans h
  | some f =>
    obtain ⟨hp, hne, hlt, ho⟩ := h
    exact ⟨h1.trans hp, hne, hlt, h2.trans ho⟩

theorem rateAt_none (first : Option (Nat × Int)) (pos rate : Int) : RateAt first none pos rate :=
  fun _ _ _ h => nomatch h

@[simp] theorem keepFirst_none (first : Option (Nat × Int)) (pos : Int) :
    keepFirst first none pos = first := by
  cases first <;> rfl

theorem i32_sub (x y : Int) : i32 (i32 x - i32 y) = i32 (x - y) := by
  unfold i32
  rw [Int.bmod_sub_bmod, Int.sub_bmod_bmod]

theorem time_eq {pts first : Nat} (h : first ≤ pts) (hlt : pts < 2 ^ 33) :
    u64 ((pts : Int) - first) = pts - first := by
  rw [show ((pts : Int) - first) = ((pts - first : Nat) : Int) by omega]
  exact u64_natCast (by omega)

theorem time_ne_zero {pts first : Nat} (h : pts < first ∨ first + 90 ≤ pts) (hpts : pts < 2 ^ 33)
    (hfirst : first < 2 ^ 33) : u64 ((pts : Int) - first) / 90 ≠ 0 := by
  rcases h with h | h
  · -- the difference wraps
    have : u64 ((pts : Int) - first) = 2 ^ 64 - (first - pts) := by
      unfold u64
      omega
    rw [this]
    omega
  · rw [time_eq (by omega) hpts]
    omega

/-- The rate of `b` bytes in `time` milliseconds. -/
theorem rate_eq {x place : Int} {time : Nat} (hb : place ≤ x) (hlt : x - place < 2 ^ 31)
    (hroom : (x - place) * 1000 / time < 2 ^ 31) :
    i32 (u64 (u64 (i32 (i32 x - i32 place)) * 1000) / time : Nat) = (x - place) * 1000 / time := by
  obtain ⟨b, hb'⟩ : ∃ b : Nat, x - place = b := ⟨(x - place).toNat, by omega⟩
  have h1 : u64 (b : Int) = b := u64_natCast (by omega)
  have h2 : u64 ((b : Int) * 1000) = b * 1000 := by
    rw [show ((b : Int) * 1000) = ((b * 1000 : Nat) : Int) by push_cast; ring]
    exact u64_natCast (by omega)
  have hdiv : ((b * 1000 / time : Nat) : Int) = (b : Int) * 1000 / time := by push_cast; rfl
  rw [i32_sub, i32_eq_self (by omega) hlt, hb', h1, h2, hdiv]
  rw [hb'] at hroom
  exact i32_eq_self (le_trans (by omega) (hdiv ▸ Int.natCast_nonneg _)) hroom

/-- The place of the packet that the parser is at. -/
def TSParser.pos (p : TSParser) : Int := p.fpos - p.buf.length + p.parsed

section
variable {p : TSParser} {c : Channel} {first : Option (Nat × Int)}

/-- A time stamp, the first one or a later one. -/
theorem takePts_meter (hr : Refers c first) (hsp : SpacedAt first (parsePts c.buf) p.pos) :
    ∃ rate pts offset, takePts p c = some ({ p with rate := rate }, { c with pts := pts, offset := offset }) ∧
      Refers { c with pts := pts, offset := offset } (keepFirst first (parsePts c.buf) p.pos) ∧
      RateAt first (parsePts c.buf) p.pos rate := by
  unfold takePts
  cases h : parsePts c.buf with
  | none =>
    refine ⟨p.rate, c.pts, c.offset, rfl, ?_, rateAt_none _ _ _⟩
    rw [keepFirst_none]
    exact hr.congr rfl rfl
  | some pts =>
    have hlt := parsePts_lt h
    cases first with
    | none =>
      have h0 : c.pts = 0 := hr
      refine ⟨p.rate, pts, i32 p.pos, ?_, ?_, fun _ _ _ _ h => nomatch h⟩
      · dsimp only
        rw [if_neg (not_not.2 h0)]
        rfl
      · unfold keepFirst
        dsimp only
        split
        · exact ‹_›
        · exact ⟨rfl, ‹_›, hlt, rfl⟩
    | some f =>
      obtain ⟨t, place⟩ := f
      obtain ⟨hpts, hne, htlt, hoff⟩ := hr
      obtain ⟨hd, hroom⟩ := hsp pts t place h rfl
      refine ⟨i32 (u64 (u64 (i32 (i32 p.pos - i32 place)) * 1000) / (u64 ((pts : Int) - t) / 90) : Nat),
        c.pts, c.offset, ?_, ⟨hpts, hne, htlt, hoff⟩, ?_⟩
      · have htime := time_ne_zero hd hlt htlt
        rw [← hpts] at hne htime
        rw [← hpts, ← hoff]
        dsimp only
        rw [if_pos hne, if_neg htime]
        rfl
      · rintro pts' t' place' ⟨⟩ ⟨⟩ h90 hfwd
        obtain ⟨hb, hfit⟩ := hroom h90 hfwd
        rw [time_eq (by omega) hlt]
        exact rate_eq hfwd hb hfit

end

/-! ## A payload -/

/-- The channel and the meter are in step. -/
structure Metered (c : Channel) (m : Meter) : Prop where
  first : Refers c m.first
  head : match m.head with
    | some head => c.held = head ∧ head.length < 14 ∧
        ((c.stage = .header ∧ head.length < 3) ∨ (c.stage = .pts ∧ c.type = .pes ∧ 3 ≤ head.length))
    | none => c.stage = .start ∨ (c.stage = .data ∧ c.type = .pes ∧ c.bytes < 3)

/-- PES data goes to a filter or nowhere. -/
theorem parseData_forPes {p : TSParser} {c : Channel} (hs : c.stage = .data) (ht : c.type = .pes) :
    ∃ fs, parseData p c = some ({ p with filters := fs }, { c with bytes := 0 }) := by
  unfold parseData
  split
  · rename_i h0
    refine ⟨p.filters, ?_⟩
    cases c
    simp only at h0
    simp [h0]
  · rename_i h0
    obtain ⟨n, hn⟩ := Nat.exists_eq_add_one_of_ne_zero h0
    rw [hn, retry, if_pos hs]
    simp only [ht]
    exact ⟨_, rfl⟩

/-- The stage of the time stamp, with `head` collected. -/
theorem parseStages_meter {p : TSParser} {c : Channel} {first : Option (Nat × Int)} {head : List Byte}
    (hs : c.stage = .pts) (ht : c.type = .pes) (hh : c.held = head) (h3 : 3 ≤ head.length)
    (hr : Refers c first) {stamp : Option Nat}
    (hst : stamp = if head.length < 14 then none else ptsOf head) (hsp : SpacedAt first stamp p.pos) :
    ∃ p' c', parseStages p c = some (p', c') ∧ RateAt first stamp p.pos p'.rate ∧
      Metered c' ⟨(some head).filter (·.length < 14), keepFirst first stamp p.pos⟩ := by
  have hbytes := Channel.bytes_eq hh
  rw [parseStages_of_pts hs, hbytes]
  by_cases hlt : head.length < 14
  · rw [if_pos hlt] at hst ⊢
    subst hst
    refine ⟨p, c, rfl, rateAt_none _ _ _, ?_, ?_⟩
    · rw [keepFirst_none]
      exact hr
    · rw [Option.filter_some_pos (by simpa using hlt)]
      exact ⟨hh, hlt, .inr ⟨hs, ht, h3⟩⟩
  · rw [if_neg hlt] at hst ⊢
    rw [← parsePts_held hh (by omega)] at hst
    subst hst
    obtain ⟨rate, pts, offset, htake, href, hrate⟩ := takePts_meter hr hsp
    obtain ⟨fs, hdata⟩ := parseData_forPes (p := { p with rate := rate })
      (c := { c with pts := pts, offset := offset, stage := .data }) rfl ht
    refine ⟨{ p with rate := rate, filters := fs },
      { c with pts := pts, offset := offset, stage := .data, bytes := 0 }, ?_, hrate,
      href.congr rfl rfl, ?_⟩
    · rw [htake, Option.bind_some]
      exact hdata
    · rw [Option.filter_some_neg (by simpa using hlt)]
      exact .inr ⟨rfl, ht, Nat.zero_lt_succ _⟩

/-- The header of a PES packet. -/
theorem buf_startCode {c : Channel} {head : List Byte} (hh : c.held = head) (h3 : 3 ≤ head.length)
    (hpes : head.take 3 <+: [0, 0, 1]) : c.buf 0 = 0 ∧ c.buf 1 = 0 ∧ c.buf 2 = 1 := by
  have heq : head.take 3 = [0, 0, 1] := hpes.eq_of_length (by simp; omega)
  have hget : ∀ k < 3, c.buf k = ([0, 0, 1] : List Byte).getD k 0 := by
    intro k hk
    rw [Channel.buf_eq hh (by omega), ← heq, List.getD_eq_getElem?_getD, List.getD_eq_getElem?_getD,
      List.getElem?_take_of_lt hk]
  exact ⟨hget 0 (by omega), hget 1 (by omega), hget 2 (by omega)⟩

/-- A payload behind which the channel has `head`. -/
theorem parsePayload_head {p : TSParser} {c : Channel} {first : Option (Nat × Int)} {head : List Byte}
    (hst : (c.stage = .header) ∨ (c.stage = .pts ∧ c.type = .pes ∧ 3 ≤ head.length))
    (hh : c.held = head) (hpes : head.take 3 <+: [0, 0, 1]) (hr : Refers c first) {stamp : Option Nat}
    (hstamp : stamp = if head.length < 14 then none else ptsOf head)
    (hsp : SpacedAt first stamp p.pos) :
    ∃ p' c', (if c.bytes < 3 then some (p, c) else parseStages p c) = some (p', c') ∧
      RateAt first stamp p.pos p'.rate ∧
      Metered c' ⟨(some head).filter (·.length < 14), keepFirst first stamp p.pos⟩ := by
  rw [Channel.bytes_eq hh]
  by_cases h3 : head.length < 3
  · rw [if_pos h3]
    rw [if_pos (by omega)] at hstamp
    subst hstamp
    refine ⟨p, c, rfl, rateAt_none _ _ _, ?_, ?_⟩
    · rw [keepFirst_none]
      exact hr
    · rw [Option.filter_some_pos (by simp; omega)]
      refine ⟨hh, by omega, ?_⟩
      rcases hst with hst | hst
      · exact .inl ⟨hst, h3⟩
      · exact .inr hst
  · rw [if_neg h3]
    rcases hst with hst | ⟨hst, ht, -⟩
    · rw [parseStages_of_pes hst (buf_startCode hh (by omega) hpes)]
      exact parseStages_meter (c := { c with type := .pes, stage := .pts }) rfl rfl hh (by omega)
        (hr.congr rfl rfl) hstamp hsp
    · exact parseStages_meter hst ht hh (by omega) hr hstamp hsp

/-- A payload of a PID that carries PES packets. -/
theorem parsePayload_meter {p : TSParser} {c : Channel} {m : Meter} {i : PesInput} (hm : Metered c m)
    (hlen : i.data.length ≤ 184) (hpes : ∀ head, m.gather i = some head → head.take 3 <+: [0, 0, 1])
    (hpos : p.pos = i.pos) (hsp : SpacedAt m.first (m.stamp i) i.pos) :
    ∃ p' c', parsePayload p c i.data i.start = some (p', c') ∧
      RateAt m.first (m.stamp i) i.pos p'.rate ∧ Metered c' (m.next i) := by
  have hsize : filterBufSize = 4100 := rfl
  rw [← hpos] at hsp ⊢
  cases hstart : i.start with
  | true =>
    have hg : m.gather i = some i.data := by simp [Meter.gather, hstart]
    have hnext : m.next i = ⟨(some i.data).filter (·.length < 14),
        keepFirst m.first (m.stamp i) p.pos⟩ := by rw [Meter.next, hg, hpos]
    rw [parsePayload_start (by omega), hnext]
    exact parsePayload_head (.inl rfl) (Channel.held_restart c i.data) (hpes _ hg)
      (hm.first.congr rfl rfl) (by rw [Meter.stamp, hg]) hsp
  | false =>
    have hhead := hm.head
    cases hmh : m.head with
    | none =>
      rw [hmh] at hhead
      have hg : m.gather i = none := by simp [Meter.gather, hstart, hmh]
      have hs : m.stamp i = none := by rw [Meter.stamp, hg]
      have hnext : m.next i = ⟨none, m.first⟩ := by
        rw [Meter.next, hg, hs, keepFirst_none]
        rfl
      rw [hs, hnext]
      rcases hhead with hst | ⟨hst, ht, hb⟩
      · exact ⟨p, c, by simp [parsePayload, hst], rateAt_none _ _ _, hm.first, .inl hst⟩
      · rw [parsePayload_cont (by simp [hst]) (by omega)]
        by_cases h3 : (c.append i.data).bytes < 3
        · rw [if_pos h3]
          exact ⟨_, _, rfl, rateAt_none _ _ _, hm.first.congr rfl rfl, .inr ⟨hst, ht, h3⟩⟩
        · rw [if_neg h3, parseStages_of_data (c := c.append i.data) hst]
          obtain ⟨fs, hdata⟩ := parseData_forPes (p := p) (c := c.append i.data) hst ht
          exact ⟨_, _, hdata, rateAt_none _ _ _, hm.first.congr rfl rfl,
            .inr ⟨hst, ht, Nat.zero_lt_succ _⟩⟩
    | some head =>
      rw [hmh] at hhead
      obtain ⟨hheld, hlt, hst⟩ := hhead
      have hg : m.gather i = some (head ++ i.data) := by simp [Meter.gather, hstart, hmh]
      have hnext : m.next i = ⟨(some (head ++ i.data)).filter (·.length < 14),
          keepFirst m.first (m.stamp i) p.pos⟩ := by rw [Meter.next, hg, hpos]
      have hbytes := Channel.bytes_eq hheld
      rw [parsePayload_cont (by rcases hst with h | h <;> simp [h.1]) (by omega), hnext]
      refine parsePayload_head (c := c.append i.data) ?_ (by rw [Channel.held_append, hheld]) (hpes _ hg)
        (hm.first.congr rfl rfl) (by rw [Meter.stamp, hg]) hsp
      rcases hst with h | h
      · exact .inl h.1
      · exact .inr ⟨h.1, h.2.1, by rw [List.length_append]; omega⟩

/-! ## Runs -/

/-- The parser and the channel are in step with the meter. -/
def RateInv (s : RateState) : Prop := ∃ p c, s.code = some (p, c) ∧ Metered c s.meter

theorem rateInv_step {s : RateState} {i : PesInput} (hs : RateInv s) (hpes : IsPes s i)
    (hsp : Spaced s i) : RateInv (rateStep s i).1 ∧ RateRight s i := by
  obtain ⟨p, c, hcode, hm⟩ := hs
  obtain ⟨p', c', hrun, hrate, hm'⟩ := parsePayload_meter
    (p := { p with fpos := i.fpos, buf := i.buf, parsed := i.parsed, filters := i.filters })
    hm hpes.1 hpes.2 rfl hsp
  have hstep : (rateStep s i).1.code = some (p', c') := by
    rw [rateStep, hcode]
    exact hrun
  exact ⟨⟨p', c', hstep, hm'⟩, p', c', hstep, hrate⟩

/-- The channel of a PID after `chan_reset`. -/
def rateStart (p : TSParser) (c : Channel) : RateState := ⟨some (p, chanReset c), {}⟩

theorem rateInv_start (p : TSParser) (c : Channel) : RateInv (rateStart p c) :=
  ⟨p, chanReset c, rfl, rfl, .inl rfl⟩

/-- **Along the PES packets of a PID, no rate is divided by zero and every rate is the one asked
for, when the time stamps keep their distance from the first one and the numbers fit.** -/
theorem rateRight_of_spaced (p : TSParser) (c : Channel) (is : List PesInput)
    (hpes : Each IsPes rateStep (rateStart p c) is) (hsp : Each Spaced rateStep (rateStart p c) is) :
    Each RateRight rateStep (rateStart p c) is := by
  have hboth : Each (fun s i => IsPes s i ∧ Spaced s i) rateStep (rateStart p c) is := hpes.and hsp
  exact each_inv (fun _ _ hs hok => rateInv_step hs hok.1 hok.2) (rateInv_start p c) hboth

/-- The first bytes of a PES packet; `hi` and `lo` are the last two of the time stamp. -/
def pesHead (hi lo : Byte) : List Byte := [0, 0, 1, 0xE0, 0, 0, 0x80, 0x80, 5, 0x21, 0, 1, hi, lo]

/-- A packet with such a PES packet at `pos`. -/
def pesAt (hi lo : Byte) (pos : Int) : PesInput := ⟨pesHead hi lo, true, pos, [], 0, []⟩

section
variable (s : RateState) (m : Meter) (hi lo : Byte) (pos : Int)

theorem isPes_pesAt : IsPes s (pesAt hi lo pos) := by
  refine ⟨?_, fun head h => ?_⟩
  · change 14 ≤ 184
    omega
  · obtain rfl := Option.some.inj h
    exact List.prefix_rfl

theorem stamp_pesAt : m.stamp (pesAt hi lo pos) = ptsOf (pesHead hi lo) := rfl

theorem pos_pesAt : (pesAt hi lo pos).pos = pos := by
  simp [PesInput.pos, pesAt]

end

theorem ptsOf_ninety : ptsOf (pesHead 0 180) = some 90 := by decide

theorem ptsOf_later : ptsOf (pesHead 1 104) = some 180 := by decide

section
variable (p : TSParser) (c : Channel)

theorem spaced_first (i : PesInput) : Spaced (rateStart p c) i := fun _ _ _ _ h => nomatch h

/-- The meter once it has a time stamp. -/
theorem first_pesAt :
    (rateStep (rateStart p c) (pesAt 0 180 0)).1.meter.first = some (90, 0) := by
  change keepFirst none (Meter.stamp {} (pesAt 0 180 0)) (pesAt 0 180 0).pos = _
  rw [stamp_pesAt, pos_pesAt, ptsOf_ninety]
  rfl

end

/-- A second time stamp, one millisecond and 1000 bytes later. -/
theorem rateRight_oneMillisecond :
    Each RateRight rateStep (rateStart (threadStart []) zeroChannel)
      [pesAt 0 180 0, pesAt 1 104 1000] := by
  refine rateRight_of_spaced (threadStart []) zeroChannel _
    ⟨isPes_pesAt _ _ _ _, isPes_pesAt _ _ _ _, trivial⟩ ⟨spaced_first _ _ _, ?_, trivial⟩
  intro pts t place hpts hfirst
  rw [stamp_pesAt, ptsOf_later] at hpts
  rw [first_pesAt] at hfirst
  obtain rfl := Option.some.inj hpts
  obtain ⟨rfl, rfl⟩ := Prod.mk.inj (Option.some.inj hfirst)
  rw [pos_pesAt]
  exact ⟨.inr (by omega), fun _ _ => ⟨by decide, by decide⟩⟩

/-- The same time stamp once more. -/
theorem takePts_same {p : TSParser} {c : Channel} {pts : Nat} (h : parsePts c.buf = some pts)
    (h0 : pts ≠ 0) (hc : c.pts = pts) : takePts p c = none := by
  unfold takePts
  rw [h]
  dsimp only
  rw [hc, if_pos h0, if_pos (by simp [u64])]

theorem parsePayload_same {p : TSParser} {c : Channel} {pts : Nat} {place : Int} {head : List Byte}
    (hr : Refers c (some (pts, place))) (h14 : 14 ≤ head.length) (hfit : head.length ≤ filterBufSize)
    (hpes : head.take 3 <+: [0, 0, 1]) (hpts : ptsOf head = some pts) :
    parsePayload p c head true = none := by
  have hheld := Channel.held_restart c head
  have hbytes := Channel.bytes_eq hheld
  rw [parsePayload_start hfit, hbytes, if_neg (by omega),
    parseStages_of_pes rfl (buf_startCode hheld (by omega) hpes), parseStages_of_pts rfl]
  have htake : takePts p { c.restart.append head with type := .pes, stage := .pts } = none :=
    takePts_same ((parsePts_held hheld h14).trans hpts) hr.2.1 hr.1
  rw [if_neg (by dsimp only; omega), htake]
  rfl

/-- Two PES packets with one time stamp: the second one divides by zero. -/
theorem rateRight_sameStamp :
    ¬ ∀ (p : TSParser) (c : Channel) (is : List PesInput), Each IsPes rateStep (rateStart p c) is →
      Each RateRight rateStep (rateStart p c) is := by
  intro h
  have hrun := h (threadStart []) zeroChannel [pesAt 0 180 0, pesAt 0 180 0]
    ⟨isPes_pesAt _ _ _ _, isPes_pesAt _ _ _ _, trivial⟩
  obtain ⟨⟨p, c, hcode, hm⟩, -⟩ := rateInv_step (rateInv_start (threadStart []) zeroChannel)
    (isPes_pesAt _ 0 180 0) (spaced_first _ _ _)
  have hfirst := hm.first
  rw [first_pesAt] at hfirst
  obtain ⟨p', c', hstep, -⟩ := hrun.2.1
  rw [rateStep, hcode] at hstep
  refine nomatch hstep.symm.trans (parsePayload_same hfirst ?_ ?_ List.prefix_rfl ptsOf_ninety)
  · exact Nat.le_refl 14
  · exact Nat.le_of_ble_eq_true rfl

end VendorAmlogic.Demux.Emu
