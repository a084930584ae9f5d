import VendorAmlogic.Lib.Trace
import VendorAmlogic.Demux.EmuStages

/-!
# Sections through the emulated demultiplexer

Packets of one PID through `parse_ts_packet`, with `emu_read` after each. Every
packet that starts a payload unit drops what the channel has, so a section that
ends before the `pointer_field` target is lost; a `pointer_field` of 0 and the
section bytes 00 01 look like the start of PES data; and stuffing behind the
end of a long section goes over the channel's buffer.
-/

namespace VendorAmlogic.Demux.Emu

open VendorAmlogic.Lib VendorAmlogic.Demux

/-! ## The channel between two packets -/

/-- The payload of the next packet that has one. -/
def lead : List Item → List Byte
  | [] => []
  | .skip :: is => lead is
  | i :: _ => i.payload

/-- `a`, which follows a `pointer_field` of 0, begins like PES data; it may be a
single byte, and the other one in the next payload. -/
def LikePes (a : List Byte) (is : List Item) : Prop := [0, 1] <+: a ++ lead is

/-- The channel has the part `a` of a section, or, with the `pointer_field`, the first
byte of it. -/
def Sync (c : Channel) (a : List Byte) (is : List Item) : Prop :=
  c.Keeps a ∨ (c.stage = .header ∧ c.held = 0 :: a ∧ a.length = 1 ∧ ¬ LikePes a is)

/-- The channel is taken for one of PES data, now or with the next payload. -/
def Off (c : Channel) (is : List Item) : Prop :=
  c.Lost ∨ ∃ a, c.stage = .header ∧ c.held = 0 :: a ∧ a.length = 1 ∧ LikePes a is

section
variable {i pid : Nat} {p : TSParser} {c : Channel} {a data : List Byte} {ss : List (List Byte)}
  {t : Tail} {is : List Item}

theorem goesOn_of_legal (hf : t.Follows ss) (h : Legal t.held is) : GoesOn t := by
  cases t with
  | stuffing k => trivial
  | split b => exact ⟨hf, h.exists_rest hf⟩

theorem two_le_follows (hss : ∀ s ∈ ss, IsSection s) (hf : t.Follows ss)
    (h : (ss.flatten ++ t.bytes).length < 2) : ∃ y, ss = [] ∧ t = .split [y] := by
  rw [List.length_append] at h
  obtain rfl := flatten_short hss (by omega)
  cases t with
  | stuffing k => exact absurd rfl hf
  | split b =>
    have hpos := List.length_pos_iff.mpr hf
    obtain ⟨y, rfl⟩ := List.length_eq_one_iff.mp (show b.length = 1 by simp [Tail.bytes] at h; omega)
    exact ⟨y, rfl, rfl⟩

/-- The two bytes behind a `pointer_field` of 0. -/
theorem like_iff {x : List Byte} (hh : c.held = 0 :: x) (hx : 2 ≤ x.length) (y : List Byte) :
    (c.buf 0 = 0 ∧ c.buf 1 = 0 ∧ c.buf 2 = 1) ↔ [0, 1] <+: x ++ y := by
  have hb : ∀ k, k < 3 → c.buf k = (0 :: x).getD k 0 := fun k hk =>
    Channel.buf_eq hh (by simp; omega)
  rw [hb 0 (by omega), hb 1 (by omega), hb 2 (by omega)]
  obtain ⟨x0, x1, xs, rfl⟩ : ∃ x0 x1 xs, x = x0 :: x1 :: xs := by
    match x, hx with
    | x0 :: x1 :: xs, _ => exact ⟨x0, x1, xs, rfl⟩
  simp only [List.getD_cons_zero, List.getD_cons_succ, List.cons_append, List.cons_prefix_cons,
    List.nil_prefix, and_true, true_and]
  exact and_congr eq_comm eq_comm

theorem length_start (r : List Byte) (ss : List (List Byte)) (t : Tail) :
    (Item.start r ss t).payload.length = r.length + (ss.flatten.length + t.bytes.length) + 1 := by
  simp [Item.payload]

/-- A packet that starts a payload unit brings the channel into step. -/
theorem parse_start {r : List Byte} (hl : Listening i pid [] p.filters) (hp : c.pid = pid)
    (hlen : (Item.start r ss t).payload.length ≤ 184) (hss : ∀ s ∈ ss, IsSection s)
    (hf : t.Follows ss) (hleg : Legal t.held is)
    (hpes : ¬ (r = [] ∧ LikePes (ss.flatten ++ t.bytes) is)) :
    ∃ p' c', parsePayload p c (Item.start r ss t).payload true = some (p', c') ∧
      Listening i pid ss p'.filters ∧ Sync c' t.held is := by
  have hw := List.length_pos_iff.mpr (follows_ne_nil hss hf)
  have hlen' := hlen
  rw [length_start] at hlen'
  rw [List.length_append] at hw
  have hheld := c.held_restart (Item.start r ss t).payload
  have hbytes := Channel.bytes_eq hheld
  rw [length_start] at hbytes
  rw [parsePayload_start (Nat.le_trans hlen (by decide))]
  split
  · -- only the `pointer_field` and one byte of a section
    have hr : r = [] := List.length_eq_zero_iff.mp (by omega)
    obtain ⟨y, rfl, rfl⟩ := two_le_follows hss hf (by rw [List.length_append]; omega)
    subst hr
    refine ⟨p, _, rfl, hl, .inr ⟨rfl, hheld, rfl, fun h => hpes ⟨rfl, h⟩⟩⟩
  · have hn : (BitVec.ofNat 8 r.length).toNat = r.length := by
      rw [BitVec.toNat_ofNat, Nat.mod_eq_of_lt (by omega)]
    have hroom : ([] ++ ss).flatten.length ≤ 4096 := by
      rw [List.nil_append]
      omega
    have hnot : ¬ ((c.restart.append (Item.start r ss t).payload).buf 0 = 0 ∧
        (c.restart.append (Item.start r ss t).payload).buf 1 = 0 ∧
        (c.restart.append (Item.start r ss t).payload).buf 2 = 1) := by
      intro h
      by_cases hr : r = []
      · subst hr
        refine hpes ⟨rfl, (like_iff hheld ?_ _).1 h⟩
        rw [List.length_nil] at hbytes
        simp only [List.nil_append, List.length_append]
        omega
      · have h0 := h.1
        rw [Channel.buf_eq hheld (Nat.zero_lt_succ _)] at h0
        have hz : (BitVec.ofNat 8 r.length).toNat = 0 := congrArg BitVec.toNat h0
        rw [hn] at hz
        exact hr (List.length_eq_zero_iff.mp hz)
    obtain ⟨p', c', h1, h2, h3⟩ := parseStages_ptr (c := c.restart.append _) hl rfl hp hheld hn
      hnot hss (goesOn_of_legal hf hleg) hf hroom
    exact ⟨p', c', h1, h2, .inl h3⟩

/-- A packet that starts like PES data. -/
theorem parse_start_pes (hl : Listening i pid [] p.filters)
    (hlen : (Item.start [] ss t).payload.length ≤ 184) (hss : ∀ s ∈ ss, IsSection s)
    (hf : t.Follows ss) (hpes : LikePes (ss.flatten ++ t.bytes) is) {p' : TSParser} {c' : Channel}
    (h : parsePayload p c (Item.start [] ss t).payload true = some (p', c')) :
    Listening i pid [] p'.filters ∧ Off c' is := by
  have hheld := c.held_restart (Item.start [] ss t).payload
  have hbytes := Channel.bytes_eq hheld
  rw [length_start, List.length_nil] at hbytes
  rw [parsePayload_start (Nat.le_trans hlen (by decide))] at h
  split at h
  · obtain ⟨y, rfl, rfl⟩ := two_le_follows hss hf (by rw [List.length_append]; omega)
    cases h
    exact ⟨hl, .inr ⟨[y], rfl, hheld, rfl, hpes⟩⟩
  · have h2 := (like_iff (c := c.restart.append (Item.start [] ss t).payload) hheld
      (by simp only [List.nil_append, List.length_append]; omega) _).2 hpes
    obtain ⟨h3, h4⟩ := parseStages_pes (c := c.restart.append _) hl rfl h2 h
    exact ⟨h3, .inl h4⟩

/-- A payload in step. -/
theorem parse_sync (data : List Byte) (ss : List (List Byte)) (t : Tail)
    (hl : Listening i pid [] p.filters) (hp : c.pid = pid) (ha : a ≠ [])
    (hc : c.Keeps a ∨ (c.stage = .header ∧ c.held = 0 :: a ∧ a.length = 1 ∧ ¬ [0, 1] <+: a ++ data))
    (hd : data ≠ []) (hlen : data.length ≤ 184) (hh : a ++ data = ss.flatten ++ t.bytes)
    (hfit : a.length + data.length ≤ filterBufSize) (hss : ∀ s ∈ ss, IsSection s) (hgo : GoesOn t)
    (hf : t.Follows ss) (hroom : ss.flatten.length ≤ 4096) :
    ∃ p' c', parsePayload p c data false = some (p', c') ∧ Listening i pid ss p'.filters ∧
      c'.Keeps t.held := by
  rcases hc with (hc | ⟨hs, ht, hh'⟩) | ⟨hs, hh', h1, hpes⟩
  · exact absurd hc ha
  · refine parsePayload_data (q := []) hl hs ht hp (by rw [hh', hh]) ?_ hss hgo hf (by simpa using hroom)
    rw [Channel.bytes_eq hh']
    exact hfit
  · have hpos := List.length_pos_iff.mpr hd
    have hb := Channel.bytes_eq hh'
    rw [List.length_cons] at hb
    have happ : (c.append data).held = 0 :: (a ++ data) := by
      rw [Channel.held_append, hh', List.cons_append]
    have hb' := Channel.bytes_eq happ
    rw [List.length_cons, List.length_append] at hb'
    rw [parsePayload_cont (by simp [hs]) (by unfold filterBufSize; omega), if_neg (by omega)]
    have hheld : (c.append data).held = 0 :: ([] ++ (ss.flatten ++ t.bytes)) := by
      rw [happ, hh, List.nil_append]
    refine parseStages_ptr (q := []) (c := c.append data) hl hs hp hheld rfl (fun h => hpes ?_) hss hgo
      hf (by simpa using hroom)
    have := (like_iff happ (by rw [List.length_append]; omega) []).1 h
    rwa [List.append_nil] at this

/-- A payload behind a section that the channel's buffer has no room for. -/
theorem parse_overflow {p : TSParser} (ha : a ≠ []) (hc : Sync c a is) (hlen : data.length ≤ 184)
    (hfit : filterBufSize < a.length + data.length) : parsePayload p c data false = none := by
  rcases hc with (hc | ⟨hs, -, hh⟩) | ⟨-, -, h1, -⟩
  · exact absurd hc ha
  · have hb := Channel.bytes_eq hh
    unfold parsePayload
    rw [if_neg (by simp [hs])]
    simp only [Bool.false_eq_true, if_false]
    rw [if_pos (by omega)]
  · unfold filterBufSize at hfit
    omega

/-- A payload on a channel taken for one of PES data. -/
theorem parse_off (data : List Byte) (hl : Listening i pid [] p.filters)
    (hc : c.Lost ∨ ∃ a, c.stage = .header ∧ c.held = 0 :: a ∧ a.length = 1 ∧ [0, 1] <+: a ++ data)
    (hd : data ≠ []) (hlen : data.length ≤ 184) {p' : TSParser} {c' : Channel}
    (h : parsePayload p c data false = some (p', c')) : Listening i pid [] p'.filters ∧ c'.Lost := by
  rcases hc with hc | ⟨a, hs, hh, h1, hpes⟩
  · exact parsePayload_lost hl hc hlen h
  · have hpos := List.length_pos_iff.mpr hd
    have hb := Channel.bytes_eq hh
    rw [List.length_cons] at hb
    have happ : (c.append data).held = 0 :: (a ++ data) := by
      rw [Channel.held_append, hh, List.cons_append]
    have hb' := Channel.bytes_eq happ
    rw [List.length_cons, List.length_append] at hb'
    rw [parsePayload_cont (by simp [hs]) (by unfold filterBufSize; omega), if_neg (by omega)] at h
    refine parseStages_pes (c := c.append data) hl hs ?_ h
    refine (like_iff happ (by rw [List.length_append]; omega) []).2 ?_
    rwa [List.append_nil]

end

/-! ## Packets -/

/-- The channel of a PID; `parser_get_chan` makes it when there is none. -/
def chanOf (fresh : Channel) (p : TSParser) (pid : Nat) : Channel :=
  (p.channels.find? (·.pid == pid)).getD (chanReset { fresh with pid := pid })

theorem parserGetChan_spec (fresh : Channel) (p : TSParser) (pid : Nat) :
    ∃ cs k, parserGetChan fresh p pid = ({ p with channels := cs }, k) ∧
      cs[k]? = some (chanOf fresh p pid) ∧ (chanOf fresh p pid).pid = pid ∧
      ∀ c : Channel, c.pid = pid → (cs.set k c).find? (·.pid == pid) = some c := by
  unfold parserGetChan chanOf
  cases hf : p.channels.findIdx? (·.pid == pid) with
  | some k =>
    obtain ⟨hk, hp, hlt⟩ := List.findIdx?_eq_some_iff_getElem.mp hf
    have hfind : p.channels.find? (·.pid == pid) = some p.channels[k] :=
      List.find?_eq_some_iff_getElem.mpr ⟨hp, k, hk, rfl, fun j hj => by simpa using hlt j hj⟩
    refine ⟨p.channels, k, rfl, by simp [hfind], by simpa [hfind] using hp, fun c hc => ?_⟩
    refine List.find?_eq_some_iff_getElem.mpr
      ⟨by simpa using hc, k, by simpa using hk, by simp, fun j hj => ?_⟩
    rw [List.getElem_set_ne (by omega)]
    simpa using hlt j hj
  | none =>
    have hfind : p.channels.find? (·.pid == pid) = none := by
      rw [List.findIdx?_eq_none_iff] at hf
      rw [List.find?_eq_none]
      intro c hc
      simpa using hf c hc
    refine ⟨_, 0, rfl, by simp [hfind], by simp [hfind, chanReset], fun c hc => ?_⟩
    simp [hc]

section
variable {pid : BitVec 13} {pk : Packet} {fresh : Channel} {p : TSParser}

theorem tsPayload_append (h : pk.Fits) (rest : List Byte) :
    tsPayload (pk.bytes pid ++ rest) = pk.item.payload := by
  rw [← tsPayload_bytes pid h]
  unfold tsPayload
  rw [List.take_append_of_le_length (Nat.le_of_eq (h.length_bytes pid).symm)]
  rfl

/-- A packet of the PID brings its payload to the channel. -/
theorem parsePacket_bytes (hpid : pid ≠ 0x1FFF) (hfit : pk.Fits) (fresh : Channel) (p : TSParser)
    (rest : List Byte) :
    ∃ cs k cc, (chanOf fresh p pid.toNat).pid = pid.toNat ∧
      (∀ c : Channel, c.pid = pid.toNat → (cs.set k c).find? (·.pid == pid.toNat) = some c) ∧
      parsePacket fresh p (pk.bytes pid ++ rest) =
        if pk.item.payload ≠ [] then
          (parsePayload { p with channels := cs } { chanOf fresh p pid.toNat with cc := cc }
            pk.item.payload pk.item.isStart).map
              fun r => { r.1 with channels := r.1.channels.set k r.2 }
        else some { p with channels := cs.set k { chanOf fresh p pid.toNat with cc := cc } } := by
  have h1 : tsPid (pk.bytes pid ++ rest) = pid.toNat := tsPid_bytes pid pk
  have hne : pid.toNat ≠ 0x1FFF := fun h => hpid (BitVec.eq_of_toNat_eq h)
  have h2 : (pk.bytes pid ++ rest).getD 1 0 &&& 0x80 = 0 := headByte1_error ..
  have h3 : decide ((pk.bytes pid ++ rest).getD 1 0 &&& 0x40 ≠ 0) = pk.item.isStart := by
    rw [Bool.eq_iff_iff, decide_eq_true_iff]
    exact headByte1_start ..
  have h4 : decide ((pk.bytes pid ++ rest).getD 3 0 &&& 0x10 ≠ 0) = decide (pk.item.payload ≠ []) := by
    rw [Bool.eq_iff_iff, decide_eq_true_iff]
    exact headByte3_payload ..
  have h5 : (pk.bytes pid ++ rest).getD 3 0 &&& 0xC0 = 0 := headByte3_scrambling ..
  obtain ⟨cs, k, hget, hk, hcp, hset⟩ := parserGetChan_spec fresh p pid.toNat
  let cc := ((pk.bytes pid ++ rest).getD 3 0 &&& 0x0F).toNat
  refine ⟨cs, k, if decide (pk.item.payload ≠ []) = true then (cc + 1) &&& 0x0F else cc, hcp, hset, ?_⟩
  unfold parsePacket
  simp only [h1, if_neg hne, h2, ne_eq, not_true_eq_false, if_false, hget, hk,
    tsPayload_append hfit rest, h3, h4, h5]
  by_cases hp : pk.item.payload = []
  · simp [hp, cc]
  · simp only [hp, not_false_eq_true, decide_true, and_self, if_true, cc]
    cases parsePayload { p with channels := cs } _ pk.item.payload pk.item.isStart with
    | none => rfl
    | some r => rfl

theorem parsePacket_skip (hpid : pid ≠ 0x1FFF) (hfit : pk.Fits) (hp : pk.item.payload = [])
    (fresh : Channel) (p : TSParser) (rest : List Byte) :
    ∃ p' cc, parsePacket fresh p (pk.bytes pid ++ rest) = some p' ∧ p'.filters = p.filters ∧
      chanOf fresh p' pid.toNat = { chanOf fresh p pid.toNat with cc := cc } := by
  obtain ⟨cs, k, cc, hcp, hset, heq⟩ := parsePacket_bytes hpid hfit fresh p rest
  rw [if_neg (by simpa using hp)] at heq
  refine ⟨_, cc, heq, rfl, ?_⟩
  have hfind := hset { chanOf fresh p pid.toNat with cc := cc } hcp
  change (List.find? _ _).getD _ = _
  rw [hfind, Option.getD_some]

theorem parsePacket_payload (hpid : pid ≠ 0x1FFF) (hfit : pk.Fits) (hp : pk.item.payload ≠ [])
    (fresh : Channel) (p : TSParser) (rest : List Byte) :
    ∃ P c, P.filters = p.filters ∧ (∃ cc, c = { chanOf fresh p pid.toNat with cc := cc }) ∧
      c.pid = pid.toNat ∧
      (parsePayload P c pk.item.payload pk.item.isStart = none →
        parsePacket fresh p (pk.bytes pid ++ rest) = none) ∧
      ∀ p1 c1, parsePayload P c pk.item.payload pk.item.isStart = some (p1, c1) →
        ∃ p', parsePacket fresh p (pk.bytes pid ++ rest) = some p' ∧ p'.filters = p1.filters ∧
          chanOf fresh p' pid.toNat = c1 := by
  obtain ⟨cs, k, cc, hcp, hset, heq⟩ := parsePacket_bytes hpid hfit fresh p rest
  rw [if_pos hp] at heq
  refine ⟨{ p with channels := cs }, { chanOf fresh p pid.toNat with cc := cc }, rfl, ⟨cc, rfl⟩, hcp,
    fun h => by rw [heq, h]; rfl, fun p1 c1 h => ?_⟩
  have hframe := parsePayload_frame h
  refine ⟨{ p1 with channels := p1.channels.set k c1 }, by rw [heq, h]; rfl, rfl, ?_⟩
  unfold chanOf
  simp only [hframe.channels]
  rw [hset c1 (hframe.pid.trans hcp), Option.getD_some]

end

/-! ## One packet -/

/-- The packet does no harm: it does not start a payload unit in the middle of a
section, does not look like PES data, and what it brings fits the channel's buffer. -/
def Passes (a : List Byte) : Item → List Item → Prop
  | .skip, _ => True
  | .cont _, _ => True
  | .fin b k, _ => a.length + (b.length + k) ≤ filterBufSize
  | .start _ ss t, is => a = [] ∧ ¬ LikePes (ss.flatten ++ t.bytes) is

/-- After a packet that did harm: a section is missing, or will be. -/
def Behind (c : Channel) (a : List Byte) (is : List Item) (q full : List (List Byte)) : Prop :=
  (Sync c a is ∧ q.length < full.length) ∨ (Off c is ∧ a ≠ [] ∧ q.length ≤ full.length)

theorem sync_nil (c : Channel) (is : List Item) : Sync c [] is := .inl (.inl rfl)

section
variable {i : Nat} {pid : BitVec 13} {pk : Packet} {fresh : Channel} {p : TSParser} {a : List Byte}
  {is : List Item}

/-- In step and no harm done: the sections of the packet are in the ring. -/
theorem packet_passes (hpid : pid ≠ 0x1FFF) (hfit : pk.Fits)
    (hl : Listening i pid.toNat [] p.filters) (hleg : Legal a (pk.item :: is))
    (hc : Sync (chanOf fresh p pid.toNat) a (pk.item :: is)) (hok : Passes a pk.item is)
    (rest : List Byte) :
    ∃ p', parsePacket fresh p (pk.bytes pid ++ rest) = some p' ∧
      Listening i pid.toNat (pk.item.completes a) p'.filters ∧
      Sync (chanOf fresh p' pid.toNat) (pk.item.after a) is := by
  have hlen := hfit.payload_le
  cases hit : pk.item with
  | skip =>
    obtain ⟨p', cc, h1, h2, h3⟩ :=
      parsePacket_skip hpid hfit (by rw [hit]; rfl) fresh p rest
    rw [hit] at hc
    exact ⟨p', h1, h2 ▸ hl, h3 ▸ hc⟩
  | cont b =>
    rw [hit] at hleg hc hlen
    obtain ⟨ha, hb, hleg⟩ := hleg
    obtain ⟨P, c, hPf, ⟨cc, rfl⟩, hcp, -, hsome⟩ :=
      parsePacket_payload hpid hfit (by rw [hit]; exact hb) fresh p rest
    obtain ⟨x, hx, hsec⟩ := hleg.exists_rest (by simp [ha])
    have hle := hsec.length_le
    simp only [List.length_append] at hle
    obtain ⟨p1, c1, h1, h2, h3⟩ := parse_sync b [] (.split (a ++ b)) (hPf ▸ hl) hcp ha hc hb
      hlen rfl (by unfold filterBufSize; omega)
      (fun _ h => absurd h List.not_mem_nil) ⟨by simp [ha], x, hx, hsec⟩ (by simp [Tail.Follows, ha])
      (by simp)
    rw [hit] at hsome
    obtain ⟨p', h4, h5, h6⟩ := hsome p1 c1 h1
    exact ⟨p', h4, h5 ▸ h2, h6 ▸ .inl h3⟩
  | fin b k =>
    rw [hit] at hleg hc hlen hok
    obtain ⟨ha, hb, hsec, hleg⟩ := hleg
    have hd : (Item.fin b k).payload ≠ [] := by simp [Item.payload, hb]
    obtain ⟨P, c, hPf, ⟨cc, rfl⟩, hcp, -, hsome⟩ :=
      parsePacket_payload hpid hfit (by rw [hit]; exact hd) fresh p rest
    obtain ⟨p1, c1, h1, h2, h3⟩ := parse_sync (Item.fin b k).payload [a ++ b]
      (.stuffing k) (hPf ▸ hl) hcp ha hc hd hlen (by simp [Item.payload, Tail.bytes])
      (by simpa [Item.payload, Passes] using hok)
      (List.forall_mem_singleton.2 hsec) trivial (List.cons_ne_nil _ _) (by simpa using hsec.length_le)
    rw [hit] at hsome
    obtain ⟨p', h4, h5, h6⟩ := hsome p1 c1 h1
    exact ⟨p', h4, h5 ▸ h2, sync_nil _ _⟩
  | start r ss t =>
    rw [hit] at hleg hlen hok
    obtain ⟨hr, hss, hf, hleg⟩ := hleg
    obtain ⟨rfl, hpes⟩ := hok
    obtain ⟨P, c, hPf, ⟨cc, rfl⟩, hcp, -, hsome⟩ :=
      parsePacket_payload hpid hfit (by rw [hit]; exact List.cons_ne_nil _ _) fresh p rest
    obtain ⟨p1, c1, h1, h2, h3⟩ := parse_start (hPf ▸ hl) hcp hlen hss hf hleg (fun h => hpes h.2)
    rw [hit] at hsome
    obtain ⟨p', h4, h5, h6⟩ := hsome p1 c1 h1
    exact ⟨p', h4, h5 ▸ h2, h6 ▸ h3⟩

/-- A packet that starts in the middle of a section: what was there is dropped. -/
theorem packet_restart {r : List Byte} {ss : List (List Byte)} {t : Tail} (hpid : pid ≠ 0x1FFF)
    (hfit : pk.Fits) (hl : Listening i pid.toNat [] p.filters) (hit : pk.item = .start r ss t)
    (hleg : Legal a (.start r ss t :: is)) (ha : a ≠ []) (rest : List Byte) :
    ∃ p', parsePacket fresh p (pk.bytes pid ++ rest) = some p' ∧
      Listening i pid.toNat ss p'.filters ∧ (∀ s ∈ ss, IsSection s) ∧
      Behind (chanOf fresh p' pid.toNat) t.held is ss ((Item.start r ss t).completes a) := by
  have hlen := hfit.payload_le
  rw [hit] at hlen
  obtain ⟨hr, hss, hf, hleg⟩ := hleg
  have hr' : r ≠ [] := by
    rcases hr with ⟨h, -⟩ | ⟨-, h, -⟩
    · exact absurd h ha
    · exact h
  obtain ⟨P, c, hPf, ⟨cc, rfl⟩, hcp, -, hsome⟩ :=
    parsePacket_payload hpid hfit (by rw [hit]; exact List.cons_ne_nil _ _) fresh p rest
  obtain ⟨p1, c1, h1, h2, h3⟩ := parse_start (hPf ▸ hl) hcp hlen hss hf hleg (fun h => hr' h.1)
  rw [hit] at hsome
  obtain ⟨p', h4, h5, h6⟩ := hsome p1 c1 h1
  refine ⟨p', h4, h5 ▸ h2, hss, .inl ⟨h6 ▸ h3, ?_⟩⟩
  simp [Item.completes, ended, ha]

/-- In step, and harm done. -/
theorem packet_fails (hpid : pid ≠ 0x1FFF) (hfit : pk.Fits)
    (hl : Listening i pid.toNat [] p.filters) (hleg : Legal a (pk.item :: is))
    (hc : Sync (chanOf fresh p pid.toNat) a (pk.item :: is)) (hbad : ¬ Passes a pk.item is)
    (rest : List Byte) :
    parsePacket fresh p (pk.bytes pid ++ rest) = none ∨
    ∃ p' q, parsePacket fresh p (pk.bytes pid ++ rest) = some p' ∧
      Listening i pid.toNat q p'.filters ∧ (∀ s ∈ q, IsSection s) ∧
      Behind (chanOf fresh p' pid.toNat) (pk.item.after a) is q (pk.item.completes a) := by
  have hlen := hfit.payload_le
  cases hit : pk.item with
  | skip => rw [hit] at hbad; exact absurd trivial hbad
  | cont b => rw [hit] at hbad; exact absurd trivial hbad
  | fin b k =>
    rw [hit] at hleg hc hlen hbad
    obtain ⟨ha, hb, -, -⟩ := hleg
    obtain ⟨P, c, -, ⟨cc, rfl⟩, -, hnone, -⟩ :=
      parsePacket_payload hpid hfit (by rw [hit]; simp [Item.payload, hb]) fresh p rest
    refine .inl (hnone ?_)
    rw [hit]
    exact parse_overflow ha hc hlen (by simpa [Item.payload, Passes] using hbad)
  | start r ss t =>
    rw [hit] at hleg hbad
    by_cases ha : a = []
    · rw [hit] at hlen
      obtain ⟨hr, hss, hf, hleg⟩ := hleg
      have hr' : r = [] := by
        rcases hr with ⟨-, h⟩ | ⟨h, -, -⟩
        · exact h
        · exact absurd ha h
      subst hr' ha
      have hpes : LikePes (ss.flatten ++ t.bytes) is := by
        by_contra h
        exact hbad ⟨rfl, h⟩
      obtain ⟨P, c, hPf, ⟨cc, rfl⟩, hcp, hnone, hsome⟩ :=
        parsePacket_payload hpid hfit (by rw [hit]; exact List.cons_ne_nil _ _) fresh p rest
      rw [hit] at hsome hnone
      cases hpay : parsePayload P _ (Item.start [] ss t).payload (Item.start [] ss t).isStart with
      | none => exact .inl (hnone hpay)
      | some x =>
        obtain ⟨p1, c1⟩ := x
        obtain ⟨h2, h3⟩ := parse_start_pes (hPf ▸ hl) hlen hss hf hpes hpay
        obtain ⟨p', h4, h5, h6⟩ := hsome p1 c1 hpay
        refine .inr ⟨p', [], h4, h5 ▸ h2, fun _ h => absurd h List.not_mem_nil, ?_⟩
        cases t with
        | split b => exact .inr ⟨h6 ▸ h3, hf, Nat.zero_le _⟩
        | stuffing k => exact .inl ⟨sync_nil _ _, by simpa [Item.completes, ended] using List.length_pos_iff.mpr hf⟩
    · obtain ⟨p', h⟩ := packet_restart hpid hfit hl hit hleg ha rest
      exact .inr ⟨p', ss, h⟩

/-- Out of step, in the middle of a section. -/
theorem packet_off (hpid : pid ≠ 0x1FFF) (hfit : pk.Fits)
    (hl : Listening i pid.toNat [] p.filters) (hleg : Legal a (pk.item :: is)) (ha : a ≠ [])
    (hc : Off (chanOf fresh p pid.toNat) (pk.item :: is)) (rest : List Byte) :
    parsePacket fresh p (pk.bytes pid ++ rest) = none ∨
    ∃ p' q, parsePacket fresh p (pk.bytes pid ++ rest) = some p' ∧
      Listening i pid.toNat q p'.filters ∧ (∀ s ∈ q, IsSection s) ∧
      Behind (chanOf fresh p' pid.toNat) (pk.item.after a) is q (pk.item.completes a) := by
  have hlen := hfit.payload_le
  have hnil : ∀ s ∈ ([] : List (List Byte)), IsSection s := fun _ h => absurd h List.not_mem_nil
  cases hit : pk.item with
  | skip =>
    obtain ⟨p', cc, h1, h2, h3⟩ :=
      parsePacket_skip hpid hfit (by rw [hit]; rfl) fresh p rest
    rw [hit] at hc
    exact .inr ⟨p', [], h1, h2 ▸ hl, hnil, .inr ⟨h3 ▸ hc, ha, Nat.zero_le _⟩⟩
  | cont b =>
    rw [hit] at hleg hc hlen
    have hb : (Item.cont b).payload ≠ [] := hleg.2.1
    obtain ⟨P, c, hPf, ⟨cc, hcc⟩, hcp, hnone, hsome⟩ :=
      parsePacket_payload hpid hfit (by rw [hit]; exact hb) fresh p rest
    have hc' : Off c (.cont b :: is) := by rw [hcc]; exact hc
    rw [hit] at hsome hnone
    cases hpay : parsePayload P c (Item.cont b).payload (Item.cont b).isStart with
    | none => exact .inl (hnone hpay)
    | some x =>
      obtain ⟨h2, h3⟩ := parse_off (Item.cont b).payload (hPf ▸ hl) hc' hb hlen hpay
      obtain ⟨p', h4, h5, h6⟩ := hsome x.1 x.2 hpay
      exact .inr ⟨p', [], h4, h5 ▸ h2, hnil, .inr ⟨.inl (h6 ▸ h3), by simp [Item.after, ha],
        Nat.zero_le _⟩⟩
  | fin b k =>
    rw [hit] at hleg hc hlen
    have hb : (Item.fin b k).payload ≠ [] := by simp [Item.payload, hleg.2.1]
    obtain ⟨P, c, hPf, ⟨cc, hcc⟩, hcp, hnone, hsome⟩ :=
      parsePacket_payload hpid hfit (by rw [hit]; exact hb) fresh p rest
    have hc' : Off c (.fin b k :: is) := by rw [hcc]; exact hc
    rw [hit] at hsome hnone
    cases hpay : parsePayload P c (Item.fin b k).payload (Item.fin b k).isStart with
    | none => exact .inl (hnone hpay)
    | some x =>
      obtain ⟨h2, h3⟩ := parse_off (Item.fin b k).payload (hPf ▸ hl) hc' hb hlen hpay
      obtain ⟨p', h4, h5, h6⟩ := hsome x.1 x.2 hpay
      exact .inr ⟨p', [], h4, h5 ▸ h2, hnil, .inl ⟨sync_nil _ _, Nat.zero_lt_one⟩⟩
  | start r ss t =>
    rw [hit] at hleg
    obtain ⟨p', h⟩ := packet_restart hpid hfit hl hit hleg ha rest
    exact .inr ⟨p', ss, h⟩

end

/-! ## Reading the filter -/

/-- `emu_read` on filter `i`, with a buffer for the longest section, until there is
nothing more. -/
def drain (i : Nat) : Nat → TSParser → Trace (List Byte) TSParser
  | 0, p => pure p
  | fuel + 1, p =>
    match p.filters[i]? with
    | none => pure p
    | some f =>
      match emuRead f 4096 with
      | (_, none) => pure p
      | (f, some d) => do
        let p ← Trace.emit d { p with filters := p.filters.set i f }
        drain i fuel p

/-- Every read takes bytes from the ring. -/
def drainAll (i : Nat) (p : TSParser) : Trace (List Byte) TSParser :=
  drain i (p.filters[i]?.elim 0 Filter.bytes) p

theorem drain_sections {i pid fuel : Nat} {q : List (List Byte)} {p : TSParser}
    (hl : Listening i pid q p.filters) (hq : ∀ s ∈ q, IsSection s) (hfuel : q.length ≤ fuel) :
    ∃ fs, drain i fuel p = ⟨q, some { p with filters := fs }⟩ ∧ Listening i pid [] fs := by
  induction q generalizing fuel p with
  | nil =>
    refine ⟨p.filters, ?_, hl⟩
    cases fuel with
    | zero => rfl
    | succ fuel =>
      obtain ⟨f, hf, hr⟩ := hl.filter
      unfold drain
      simp only [hf, hr.emuRead_nil]
      rfl
  | cons s q ih =>
    obtain ⟨fuel, rfl⟩ := Nat.exists_eq_add_one_of_ne_zero (n := fuel) (by simp at hfuel; omega)
    obtain ⟨f, hf, hr⟩ := hl.filter
    obtain ⟨f', hread, hr', -⟩ := hr.emuRead (hq s List.mem_cons_self)
    obtain ⟨fs, h1, h2⟩ := ih (p := { p with filters := p.filters.set i f' }) (hl.set hr')
      (fun x hx => hq x (List.mem_cons_of_mem _ hx)) (by simpa using hfuel)
    refine ⟨fs, ?_, h2⟩
    unfold drain
    simp only [hf, hread, Trace.emit_bind, h1]

theorem drainAll_sections {i pid : Nat} {q : List (List Byte)} {p : TSParser}
    (hl : Listening i pid q p.filters) (hq : ∀ s ∈ q, IsSection s) :
    ∃ fs, drainAll i p = ⟨q, some { p with filters := fs }⟩ ∧ Listening i pid [] fs := by
  obtain ⟨f, hf, hr⟩ := hl.filter
  refine drain_sections hl hq ?_
  rw [hf, Option.elim_some, hr.bytes]
  exact length_le_flatten hq

/-! ## Packet after packet -/

/-- The parsers have the same channels and filters. -/
structure SameCore (p p' : TSParser) : Prop where
  channels : p'.channels = p.channels
  filters : p'.filters = p.filters

/-- The packets are parsed one after the other, with whatever behind them in the
buffer, and the filter is read after each; `E` is what the reads return. -/
inductive Feeds (fresh : Channel) (i : Nat) : TSParser → List (List Byte) → List (List Byte) → Prop
  | nil (p : TSParser) : Feeds fresh i p [] []
  | stop {p q : TSParser} {b rest : List Byte} {bs : List (List Byte)} (hs : SameCore p q)
      (h : parsePacket fresh q (b ++ rest) = none) : Feeds fresh i p (b :: bs) []
  | cons {p q r s t : TSParser} {b rest : List Byte} {bs E E' : List (List Byte)}
      (hs : SameCore p q) (h : parsePacket fresh q (b ++ rest) = some r) (hs' : SameCore r s)
      (hd : drainAll i s = ⟨E, some t⟩) (hbs : Feeds fresh i t bs E') :
      Feeds fresh i p (b :: bs) (E ++ E')

/-- No packet does harm. -/
def Intact : List Byte → List Item → Prop
  | _, [] => True
  | a, it :: is => Passes a it is ∧ Intact (it.after a) is

theorem SameCore.chanOf {p p' : TSParser} (h : SameCore p p') (fresh : Channel) (pid : Nat) :
    Emu.chanOf fresh p' pid = Emu.chanOf fresh p pid := by
  unfold Emu.chanOf
  rw [h.channels]

/-- A section in progress counts. -/
theorem sections_pos {a : List Byte} {is : List Item} (h : Legal a is) (ha : a ≠ []) :
    0 < (sections a is).length := by
  induction is generalizing a with
  | nil => exact absurd h ha
  | cons it is ih =>
    cases it with
    | skip => exact ih h ha
    | cont b => exact ih h.2.2 (by simp [ha])
    | fin b k => simp [sections]
    | start r ss t => simp [sections, ended, ha]

theorem sections_start_pos {a r : List Byte} {ss : List (List Byte)} {t : Tail} {is : List Item}
    (h : Legal a (.start r ss t :: is)) : 0 < (sections a (.start r ss t :: is)).length := by
  obtain ⟨-, -, hf, h⟩ := h
  cases t with
  | stuffing k =>
    have := List.length_pos_iff.mpr hf
    simp only [sections, List.length_append]
    omega
  | split b =>
    have := sections_pos h hf
    simp only [sections, List.length_append]
    omega

section
variable {i : Nat} {pid : BitVec 13} {fresh : Channel}

/-- What the reads return, compared with the sections carried. -/
structure Outcome (fresh : Channel) (pid : Nat) (p : TSParser) (a : List Byte) (is : List Item)
    (E : List (List Byte)) : Prop where
  full : Sync (chanOf fresh p pid) a is → Intact a is → E = sections a is
  short : Sync (chanOf fresh p pid) a is → ¬ Intact a is → E.length < (sections a is).length
  off : Off (chanOf fresh p pid) is → a ≠ [] → E.length < (sections a is).length

theorem Outcome.le {p : TSParser} {a : List Byte} {is : List Item} {E : List (List Byte)}
    (h : Outcome fresh pid.toNat p a is E) (hc : Sync (chanOf fresh p pid.toNat) a is) :
    E.length ≤ (sections a is).length := by
  by_cases hi : Intact a is
  · exact Nat.le_of_eq (congrArg List.length (h.full hc hi))
  · exact Nat.le_of_lt (h.short hc hi)

/-- A packet that did harm leaves the reads short. -/
theorem Outcome.behind {p : TSParser} {a : List Byte} {it : Item} {is : List Item}
    {q E : List (List Byte)} (h : Outcome fresh pid.toNat p (it.after a) is E)
    (hb : Behind (chanOf fresh p pid.toNat) (it.after a) is q (it.completes a)) :
    (q ++ E).length < (sections a (it :: is)).length := by
  rw [sections_cons, List.length_append, List.length_append]
  rcases hb with ⟨hs, hlt⟩ | ⟨ho, ha, hle⟩
  · have := h.le hs
    omega
  · have := h.off ho ha
    omega

/-- **The reads and the sections carried**, whatever the channel was before. -/
theorem feeds_outcome {ps : List Packet} {p : TSParser} {a : List Byte} {E : List (List Byte)}
    (hpid : pid ≠ 0x1FFF) (hfit : ∀ pk ∈ ps, pk.Fits) (hl : Listening i pid.toNat [] p.filters)
    (hleg : Legal a (ps.map Packet.item)) (hf : Feeds fresh i p (ps.map (Packet.bytes pid)) E) :
    Outcome fresh pid.toNat p a (ps.map Packet.item) E := by
  induction ps generalizing p a E with
  | nil =>
    cases hf
    obtain rfl : a = [] := hleg
    exact ⟨fun _ _ => rfl, fun _ h => absurd trivial h, fun _ h => absurd rfl h⟩
  | cons pk ps ih =>
    have hfit1 := hfit pk List.mem_cons_self
    rw [List.map_cons] at hleg hf
    rw [List.map_cons]
    cases hf with
    | stop hs h =>
      have hl' := hl
      rw [← hs.filters] at hl'
      refine ⟨fun hc hi => ?_, fun hc hi => ?_, fun _ ha => sections_pos hleg ha⟩
      · rw [← hs.chanOf] at hc
        obtain ⟨p', h', -⟩ := packet_passes hpid hfit1 hl' hleg hc hi.1 _
        rw [h] at h'
        cases h'
      · by_cases hok : Passes a pk.item (ps.map Packet.item)
        · rw [← hs.chanOf] at hc
          obtain ⟨p', h', -⟩ := packet_passes hpid hfit1 hl' hleg hc hok _
          rw [h] at h'
          cases h'
        · cases hit : pk.item with
          | skip => rw [hit] at hok; exact absurd trivial hok
          | cont b => rw [hit] at hok; exact absurd trivial hok
          | fin b k => simp [sections]
          | start r ss t =>
            rw [hit] at hleg
            exact sections_start_pos hleg
    | cons hs h hs' hd hbs =>
      rename_i p' p1 p2 p3 rest E1 E2
      have hl' := hl
      rw [← hs.filters] at hl'
      -- the reads return what the packet left in the ring
      have hrest : ∀ q, Listening i pid.toNat q p1.filters → (∀ s ∈ q, IsSection s) →
          E1 = q ∧ Outcome fresh pid.toNat p1 (pk.item.after a) (ps.map Packet.item) E2 := by
        intro q hq hsec
        rw [← hs'.filters] at hq
        obtain ⟨fs, h1, h2⟩ := drainAll_sections hq hsec
        rw [hd] at h1
        obtain ⟨rfl, h3⟩ := Trace.mk.inj h1
        obtain rfl := Option.some.inj h3
        obtain ⟨o1, o2, o3⟩ := ih (fun x hx => hfit x (List.mem_cons_of_mem _ hx)) h2 hleg.tail hbs
        have hchan : chanOf fresh { p2 with filters := fs } pid.toNat = chanOf fresh p1 pid.toNat :=
          hs'.chanOf fresh pid.toNat
        rw [hchan] at o1 o2 o3
        exact ⟨rfl, o1, o2, o3⟩
      refine ⟨fun hc hi => ?_, fun hc hi => ?_, fun hc ha => ?_⟩
      · rw [← hs.chanOf] at hc
        obtain ⟨p'', h1, h2, h3⟩ := packet_passes hpid hfit1 hl' hleg hc hi.1 rest
        rw [h] at h1
        cases h1
        obtain ⟨rfl, ho⟩ := hrest _ h2 hleg.isSection_completes
        rw [sections_cons, ho.full h3 hi.2]
      · rw [← hs.chanOf] at hc
        by_cases hok : Passes a pk.item (ps.map Packet.item)
        · obtain ⟨p'', h1, h2, h3⟩ := packet_passes hpid hfit1 hl' hleg hc hok rest
          rw [h] at h1
          cases h1
          obtain ⟨rfl, ho⟩ := hrest _ h2 hleg.isSection_completes
          have := ho.short h3 fun hi' => hi ⟨hok, hi'⟩
          rw [sections_cons, List.length_append, List.length_append]
          omega
        · rcases packet_fails hpid hfit1 hl' hleg hc hok rest with h1 | ⟨p'', q, h1, h2, h3, h4⟩
          · rw [h] at h1
            cases h1
          · rw [h] at h1
            cases h1
            obtain ⟨rfl, ho⟩ := hrest q h2 h3
            exact ho.behind h4
      · rw [← hs.chanOf] at hc
        rcases packet_off hpid hfit1 hl' hleg ha hc rest with h1 | ⟨p'', q, h1, h2, h3, h4⟩
        · rw [h] at h1
          cases h1
        · rw [h] at h1
          cases h1
          obtain ⟨rfl, ho⟩ := hrest q h2 h3
          exact ho.behind h4

end

end VendorAmlogic.Demux.Emu
