import VendorAmlogic.Demux.DvrParse

/-!
# Sections through the DVR demultiplexer

What `parse_ts_packet` delivers of a legal packetisation. The section loop keeps
its place as long as the buffer of the channel holds the bytes of the section
in progress. It loses it when a packet ends inside the three bytes of a
section header: `check_sec` copies them but does not count them.
-/

namespace VendorAmlogic.Demux

open VendorAmlogic.Lib

/-! ## The buffer of a channel -/

/-- The bytes of the section in progress. -/
def DvrChannel.held (c : DvrChannel) : List Byte := c.buf.1.take c.size

theorem put_eq_some {b b' : SecBuf} {o : Nat} {d : List Byte} (h : b.put o d = some b') :
    o + d.length ≤ 4096 ∧ b'.1 = b.1.take o ++ d ++ b.1.drop (o + d.length) := by
  unfold SecBuf.put at h
  split at h
  · rename_i hle
    have hb := b.2
    cases h
    exact ⟨hle, overwrite_of_le (by omega)⟩
  · cases h

theorem exists_put (b : SecBuf) {o : Nat} {d : List Byte} (h : o + d.length ≤ 4096) :
    ∃ b', b.put o d = some b' :=
  ⟨_, dif_pos h⟩

/-- `c'` is `c` with the bytes `d` behind those held. -/
structure Appends (c c' : DvrChannel) (d : List Byte) : Prop where
  rest : c' = { c with buf := c'.buf, size := c'.size }
  size_eq : c'.size = c.size + d.length
  size_le : c'.size ≤ 4096
  held_eq : c'.held = c.held ++ d

theorem appends_put {c : DvrChannel} {b : SecBuf} {d : List Byte} (h : c.buf.put c.size d = some b) :
    Appends c { c with buf := b, size := c.size + d.length } d := by
  obtain ⟨hle, hb⟩ := put_eq_some h
  have hl := c.buf.2
  refine ⟨rfl, rfl, hle, ?_⟩
  have h1 : (c.buf.1.take c.size ++ d).length = c.size + d.length := by
    simp only [List.length_append, List.length_take]; omega
  simp only [DvrChannel.held, hb]
  rw [List.take_append_of_le_length (by omega), List.take_of_length_le (by omega)]

theorem Appends.refl {c : DvrChannel} (h : c.size ≤ 4096) : Appends c c [] :=
  ⟨rfl, rfl, h, (List.append_nil _).symm⟩

theorem Appends.trans {c c' c'' : DvrChannel} {d e : List Byte} (h : Appends c c' d)
    (h' : Appends c' c'' e) : Appends c c'' (d ++ e) := by
  refine ⟨?_, ?_, h'.size_le, ?_⟩
  · rw [h'.rest, h.rest]
  · rw [h'.size_eq, h.size_eq, List.length_append, Nat.add_assoc]
  · rw [h'.held_eq, h.held_eq, List.append_assoc]

theorem length_held {c : DvrChannel} (h : c.size ≤ 4096) : c.held.length = c.size := by
  have := c.buf.2
  simp only [DvrChannel.held, List.length_take]; omega

/-- Three bytes held give the length of the section. -/
theorem slen_eq_of_held {c : DvrChannel} (h : 3 ≤ c.size) :
    c.slen = secLen (c.held.getD 1 0) (c.held.getD 2 0) := by
  simp only [DvrChannel.slen, DvrChannel.held, List.getD_eq_getElem?_getD,
    List.getElem?_take_of_lt (show 1 < c.size by omega),
    List.getElem?_take_of_lt (show 2 < c.size by omega)]

theorem fillHeader_appends {c c' : DvrChannel} {data : List Byte} {n : Nat} (hc : c.size ≤ 4096)
    (hl : 3 ≤ c.size + data.length) (h : fillHeader c data = some (c', n)) :
    Appends c c' (data.take n) ∧ n ≤ data.length ∧ 3 ≤ c'.size := by
  unfold fillHeader at h
  split at h
  · rename_i hlt
    cases hp : c.buf.put c.size (data.take (3 - c.size)) with
    | none => simp [hp] at h
    | some b =>
      simp only [hp, Option.bind_eq_bind, Option.bind_some, Option.some.injEq, Prod.mk.injEq] at h
      obtain ⟨rfl, rfl⟩ := h
      have ha := appends_put hp
      have hlen : (data.take (3 - c.size)).length = 3 - c.size := by
        rw [List.length_take]; omega
      rw [hlen, show c.size + (3 - c.size) = 3 by omega] at ha
      exact ⟨ha, by omega, Nat.le_refl 3⟩
  · cases h
    exact ⟨by simpa using Appends.refl hc, by omega, by omega⟩

theorem fillBody_appends {c c' : DvrChannel} {data : List Byte} {n : Nat}
    (h : fillBody c data = some (c', n)) :
    Appends c c' (data.take n) ∧ n = min (c.slen - c.size) data.length ∧ c.size ≤ c.slen := by
  unfold fillBody at h
  split at h
  · cases h
  · rename_i hge
    cases hp : c.buf.put c.size (data.take (min (c.slen - c.size) data.length)) with
    | none => simp [hp] at h
    | some b =>
      simp only [hp, Option.bind_eq_bind, Option.bind_some, Option.some.injEq, Prod.mk.injEq] at h
      obtain ⟨rfl, rfl⟩ := h
      have ha := appends_put hp
      rw [List.length_take, Nat.min_eq_left (Nat.min_le_right _ _)] at ha
      exact ⟨ha, rfl, by omega⟩

/-- The bytes `check_sec` takes go behind those held. -/
theorem fillSec_appends {c c' : DvrChannel} {data : List Byte} {n : Nat} (hc : c.size ≤ 4096)
    (hl : 3 ≤ c.size + data.length) (h : fillSec c data = some (c', n)) :
    Appends c c' (data.take n) ∧ 3 ≤ c'.size := by
  unfold fillSec at h
  cases h1 : fillHeader c data with
  | none => simp [h1] at h
  | some r =>
    obtain ⟨c1, n1⟩ := r
    simp only [h1, Option.bind_eq_bind, Option.bind_some] at h
    cases h2 : fillBody c1 (data.drop n1) with
    | none => simp [h2] at h
    | some r =>
      obtain ⟨c2, n2⟩ := r
      simp only [h2, Option.bind_some, Option.some.injEq, Prod.mk.injEq] at h
      obtain ⟨rfl, rfl⟩ := h
      obtain ⟨ha1, -, h3⟩ := fillHeader_appends hc hl h1
      obtain ⟨ha2, -, -⟩ := fillBody_appends h2
      have hs := ha2.size_eq
      rw [List.take_add]
      exact ⟨ha1.trans ha2, by omega⟩

/-- The copies stay in the buffer when the section does. -/
theorem exists_fillSec {c : DvrChannel} (data : List Byte) {x : List Byte} (hc : c.size ≤ 4096)
    (hl : 3 ≤ c.size + data.length) (hx : x = c.held ++ data)
    (slen : Nat) (hs : slen = secLen (x.getD 1 0) (x.getD 2 0)) (hle : c.size ≤ slen)
    (hfit : min slen x.length ≤ 4096) :
    ∃ c', fillSec c data = some (c', min slen x.length - c.size) := by
  have hh := length_held hc
  have hxl : x.length = c.size + data.length := by rw [hx, List.length_append, hh]
  -- the header is complete
  obtain ⟨c1, n1, h1, hn1⟩ : ∃ c1 n1, fillHeader c data = some (c1, n1) ∧ n1 = 3 - c.size := by
    unfold fillHeader
    split
    · have hlen : (data.take (3 - c.size)).length = 3 - c.size := by rw [List.length_take]; omega
      obtain ⟨b, hb⟩ := exists_put c.buf (o := c.size) (d := data.take (3 - c.size)) (by omega)
      exact ⟨{ c with buf := b, size := 3 }, 3 - c.size, by simp [hb], rfl⟩
    · exact ⟨c, 0, rfl, by omega⟩
  obtain ⟨ha1, hn, h3⟩ := fillHeader_appends hc hl h1
  have hsz := ha1.size_eq
  rw [List.length_take, Nat.min_eq_left hn] at hsz
  have hslen : c1.slen = slen := by
    have hx3 : x = c1.held ++ data.drop n1 := by
      rw [ha1.held_eq, List.append_assoc, List.take_append_drop, hx]
    have hl1 := length_held ha1.size_le
    rw [slen_eq_of_held h3, hs, hx3]
    rw [List.getD_append c1.held _ 0 1 (by omega), List.getD_append c1.held _ 0 2 (by omega)]
  have hs3 : 3 ≤ slen := by rw [hs]; exact Nat.le_add_left 3 _
  have hdl : (data.drop n1).length = data.length - n1 := List.length_drop
  obtain ⟨b, hb⟩ := exists_put c1.buf (o := c1.size)
    (d := (data.drop n1).take (min (c1.slen - c1.size) (data.drop n1).length))
    (by rw [List.length_take]; omega)
  have hret : n1 + min (c1.slen - c1.size) (data.drop n1).length = min slen x.length - c.size := by
    omega
  refine ⟨{ c1 with buf := b, size := c1.size + min (c1.slen - c1.size) (data.drop n1).length }, ?_⟩
  simp only [fillSec, h1, Option.bind_eq_bind, Option.bind_some, fillBody, hb, hret,
    if_neg (show ¬ c1.slen < c1.size by omega)]

/-! ## A channel with one filter -/

/-- PID `pid` goes to the section channel `ch`, whose only filter `g` of the driver
belongs to the device's filter `a` and accepts every section, whatever lies
behind it in the buffer. Nothing happens during a callback. -/
structure Listening (pid : Nat) (ch g a : Fin 32) (s : St) : Prop where
  env : s.env = []
  found : findPid s.dev pid = some ch
  isSec : (s.chan ch).isSec = true
  filters : ∀ i, ((s.dev.dvrFilters i).used = true ∧ (s.dev.dvrFilters i).chan = some ch) ↔ i = g
  handle : (s.dev.dvrFilters g).dmxFilter = some a
  accepts : ∀ b : List Byte, b.getD 0 0 ≠ 0xFF → secMatch (s.dev.dvrFilters g) b = true
  size_le : (s.chan ch).size ≤ 4096

/-- `Listening`, with the bytes `h` of the section in progress. -/
structure Holding (pid : Nat) (ch g a : Fin 32) (h : List Byte) (s : St) : Prop
    extends Listening pid ch g a s where
  held : (s.chan ch).held = h

section
variable {pid : Nat} {ch g a : Fin 32} {s : St} {h data : List Byte}

@[simp] theorem chan_setChan (s : St) (ch : Fin 32) (c : DvrChannel) : (s.setChan ch c).chan ch = c := by
  simp [St.setChan, St.chan, Dev.setChan]

theorem findPid_setChan {d : Dev} {c : DvrChannel} (hu : c.used = (d.dvrChannels ch).used)
    (hp : c.pid = (d.dvrChannels ch).pid) (pid : Nat) :
    findPid (d.setChan ch c) pid = findPid d pid := by
  unfold findPid
  congr 1
  funext i
  by_cases hi : i = ch
  · subst hi; simp [Dev.setChan, hu, hp]
  · simp [Dev.setChan, hi]

theorem Listening.setChan (hs : Listening pid ch g a s) {c : DvrChannel}
    (hc : c = { s.chan ch with buf := c.buf, size := c.size, cc := c.cc }) (hle : c.size ≤ 4096) :
    Listening pid ch g a (s.setChan ch c) where
  env := hs.env
  found := by
    have hu : c.used = (s.chan ch).used := by rw [hc]
    have hp : c.pid = (s.chan ch).pid := by rw [hc]
    exact (findPid_setChan hu hp pid).trans hs.found
  isSec := by rw [chan_setChan, hc]; exact hs.isSec
  filters := hs.filters
  handle := hs.handle
  accepts := hs.accepts
  size_le := by rwa [chan_setChan]

theorem Listening.clear (hs : Listening pid ch g a s) : Holding pid ch g a [] (s.clear ch) where
  toListening := hs.setChan rfl (Nat.zero_le _)
  held := by simp [St.clear, DvrChannel.held]

theorem Holding.length_eq (hs : Holding pid ch g a h s) : (s.chan ch).size = h.length := by
  rw [← hs.held, length_held hs.size_le]

/-- After the copies of `check_sec`. -/
theorem Holding.appends (hs : Holding pid ch g a h s) {c : DvrChannel} {d : List Byte}
    (hc : Appends (s.chan ch) c d) : Holding pid ch g a (h ++ d) (s.setChan ch c) where
  toListening := hs.setChan (by rw [hc.rest]) hc.size_le
  held := by rw [chan_setChan, hc.held_eq, hs.held]

theorem Listening.holding (hs : Listening pid ch g a s) : Holding pid ch g a (s.chan ch).held s :=
  ⟨hs, rfl⟩

/-- The only filter gets the section if it matches. -/
theorem Listening.findMatch_eq (hs : Listening pid ch g a s) :
    findMatch s.dev ch =
      if secMatch (s.dev.dvrFilters g) (s.chan ch).buf then some g else none := by
  have hg := (hs.filters g).2 rfl
  have hother : ∀ i, i ≠ g →
      ((s.dev.dvrFilters i).used && ((s.dev.dvrFilters i).chan == some ch)) = false := by
    intro i hi
    rw [Bool.and_eq_false_iff]
    by_contra hc
    push Not at hc
    exact hi ((hs.filters i).1 ⟨by simpa using hc.1, by simpa using hc.2⟩)
  split
  · rename_i hm
    refine Fin.find?_eq_some_iff.2 ⟨?_, fun j hj => ?_⟩
    · simpa [hg.1, hg.2, St.chan] using hm
    · simp [hother j (Fin.ne_of_lt hj)]
  · rename_i hm
    refine Fin.find?_eq_none_iff.2 fun i => ?_
    by_cases hi : i = g
    · subst hi; simpa [St.chan] using fun _ _ => by simpa [St.chan] using hm
    · simp [hother i hi]

/-! ## `check_sec` in step with the sections -/

theorem dataCb_of_env (he : s.env = []) : dataCb s = some s := by
  simp only [dataCb, he]

theorem dispatch_yields (hs : Holding pid ch g a h s) (h0 : (s.chan ch).buf.1.getD 0 0 ≠ 0xFF) :
    Trace.Yields SecEvent.callback [(a, h)] (Holding pid ch g a h) (dispatch pid s ch) := by
  have hd : dispatch pid s ch =
      ⟨[⟨s.dev, ch, pid, (s.chan ch).held, some g⟩], some s⟩ := by
    have hf : findMatch s.dev ch = some g := by
      rw [hs.findMatch_eq, hs.accepts _ h0, if_pos rfl]
    unfold dispatch
    rw [hf]
    dsimp only
    rw [hs.handle]
    dsimp only
    rw [Trace.emit_bind, dataCb_of_env hs.env]
    rfl
  rw [hd]
  exact ⟨by simp [SecEvent.callback, hs.handle, hs.held], s, rfl, hs⟩

/-- The header does not get complete: the bytes are not counted. -/
theorem checkSec_short (hs : Holding pid ch g a h s) (data : List Byte) (hlt : h.length + data.length < 3) :
    ∃ s', checkSec pid s ch data = pure (s', data.length) ∧ Holding pid ch g a h s' := by
  have hsz := hs.length_eq
  obtain ⟨b, hb⟩ := exists_put (s.chan ch).buf (o := (s.chan ch).size) (d := data) (by omega)
  have hheld : DvrChannel.held { s.chan ch with buf := b } = h := by
    have hl := (s.chan ch).buf.2
    obtain ⟨-, hb'⟩ := put_eq_some hb
    rw [← hs.held]
    simp only [DvrChannel.held, hb', List.append_assoc]
    rw [List.take_append_of_le_length (by rw [List.length_take]; omega), List.take_take, Nat.min_self]
  simp only [checkSec, if_pos (show (s.chan ch).size + data.length < 3 by omega), hb,
    Trace.ofOption_some, Trace.pure_bind]
  refine ⟨_, rfl, hs.setChan rfl hs.size_le, ?_⟩
  rw [chan_setChan, hheld]

/-- The header is complete, the section is not. -/
theorem checkSec_prefixOnly (hs : Holding pid ch g a h s) (data : List Byte)
    (h3 : 3 ≤ (h ++ data).length)
    (hlt : (h ++ data).length < secLen ((h ++ data).getD 1 0) ((h ++ data).getD 2 0))
    (hle : (h ++ data).length ≤ 4096) :
    Trace.Yields SecEvent.callback []
      (fun r => Holding pid ch g a (h ++ data) r.1 ∧ r.2 = data.length) (checkSec pid s ch data) := by
  have hsz := hs.length_eq
  have hl : (h ++ data).length = h.length + data.length := List.length_append
  obtain ⟨c, hf⟩ := exists_fillSec data (x := h ++ data) hs.size_le (by omega) (by rw [hs.held]) _ rfl
    (by omega) (by omega)
  rw [Nat.min_eq_right hlt.le, show (h ++ data).length - (s.chan ch).size = data.length by omega] at hf
  obtain ⟨ha, hc3⟩ := fillSec_appends hs.size_le (by omega) hf
  rw [List.take_length] at ha
  have hh := hs.appends ha
  have hheld : c.held = h ++ data := by rw [ha.held_eq, hs.held]
  have hne : c.slen ≠ c.size := by
    have := ha.size_eq
    rw [slen_eq_of_held hc3, hheld]; omega
  simp only [checkSec, if_neg (show ¬ (s.chan ch).size + data.length < 3 by omega), hf,
    Trace.ofOption_some, Trace.pure_bind, if_neg hne]
  exact Trace.yields_pure ⟨hh, rfl⟩

/-- The section gets complete and is delivered. -/
theorem checkSec_complete (hs : Holding pid ch g a h s) {d : List Byte} (hsec : IsSection (h ++ d))
    (rest : List Byte) :
    Trace.Yields SecEvent.callback [(a, h ++ d)]
      (fun r => Holding pid ch g a [] r.1 ∧ r.2 = d.length) (checkSec pid s ch (d ++ rest)) := by
  have hsz := hs.length_eq
  obtain ⟨h3, hlen, hle, ht⟩ := hsec
  have hl : (h ++ d).length = h.length + d.length := List.length_append
  have hl' : (d ++ rest).length = d.length + rest.length := List.length_append
  have hx : ∀ i, i < 3 → (h ++ (d ++ rest)).getD i 0 = (h ++ d).getD i 0 := by
    intro i hi
    rw [← List.append_assoc, List.getD_append (h ++ d) rest 0 i (by omega)]
  have hxl : (h ++ (d ++ rest)).length = h.length + (d ++ rest).length := List.length_append
  obtain ⟨c, hf⟩ := exists_fillSec (d ++ rest) (x := h ++ (d ++ rest)) hs.size_le (by omega)
    (by rw [hs.held]) (h ++ d).length
    (by rw [hx 1 (by omega), hx 2 (by omega)]; exact hlen) (by omega) (by omega)
  rw [Nat.min_eq_left (by omega), show (h ++ d).length - (s.chan ch).size = d.length by omega] at hf
  obtain ⟨ha, hc3⟩ := fillSec_appends hs.size_le (by omega) hf
  rw [List.take_left] at ha
  have hh := hs.appends ha
  have hheld : c.held = h ++ d := by rw [ha.held_eq, hs.held]
  have heq : c.slen = c.size := by
    have := ha.size_eq
    rw [slen_eq_of_held hc3, hheld]; omega
  have h0 : ((s.setChan ch c).chan ch).buf.1.getD 0 0 ≠ 0xFF := by
    have : c.held.getD 0 0 = c.buf.1.getD 0 0 := by
      simp only [DvrChannel.held, List.getD_eq_getElem?_getD,
        List.getElem?_take_of_lt (show 0 < c.size by omega)]
    rw [chan_setChan, ← this, hheld]
    exact ht
  simp only [checkSec, if_neg (show ¬ (s.chan ch).size + (d ++ rest).length < 3 by omega), hf,
    Trace.ofOption_some, Trace.pure_bind, if_pos heq]
  have hy := dispatch_yields hh h0
  rw [← List.append_nil [(a, h ++ d)]]
  exact hy.bind fun s' hs' => Trace.yields_pure ⟨hs'.toListening.clear, rfl⟩

/-! ## The loop of `parse_sec` -/

/-- A packet that ends in stuffing, or with the last section. -/
theorem secLoop_stuffing (k fuel : Nat) :
    secLoop pid ch (fuel + 1) false s (List.replicate k 0xFF) = pure s := by
  cases k with
  | zero => simp [secLoop]
  | succ k => simp [secLoop, List.replicate_succ]

theorem secLoop_nil (first : Bool) (fuel : Nat) :
    secLoop pid ch (fuel + 1) first s [] = pure s := by
  simp [secLoop]

/-- Whole sections back to back. -/
theorem secLoop_sections {L : List (Fin 32 × List Byte)} {Q : St → Prop} {rest : List Byte}
    {fuel : Nat} (ss : List (List Byte)) (hss : ∀ x ∈ ss, IsSection x) (first : Bool)
    (hs : Holding pid ch g a [] s)
    (hrest : ∀ s', Holding pid ch g a [] s' →
      Trace.Yields SecEvent.callback L Q (secLoop pid ch fuel (first && ss.isEmpty) s' rest)) :
    Trace.Yields SecEvent.callback (ss.map (a, ·) ++ L) Q
      (secLoop pid ch (ss.length + fuel) first s (ss.flatten ++ rest)) := by
  induction ss generalizing s first with
  | nil => simpa using hrest s hs
  | cons x ss ih =>
    have hx := hss x List.mem_cons_self
    have hne : x ≠ [] := by
      rintro rfl
      exact absurd hx.header (by decide)
    have h0 : (x ++ (ss.flatten ++ rest)).getD 0 0 ≠ 0xFF := by
      rw [List.getD_append x _ 0 0 (List.length_pos_iff.mpr hne)]
      exact hx.tableId
    have hcheck := checkSec_complete hs (d := x) (by simpa using hx) (ss.flatten ++ rest)
    rw [List.length_cons, Nat.succ_add, List.flatten_cons, List.append_assoc, secLoop,
      if_pos ⟨by simp [hne], .inr h0⟩]
    refine hcheck.bind fun r hr => ?_
    obtain ⟨s', n⟩ := r
    obtain ⟨hs', rfl⟩ := hr
    simp only [List.drop_left]
    exact ih (fun y hy => hss y (List.mem_cons_of_mem x hy)) false hs' (by simpa using hrest)

/-- The first bytes of a section that goes on in the next packet, the header
being complete. -/
theorem secLoop_prefix (hs : Holding pid ch g a h s) {b c : List Byte} (hb : b ≠ []) (hc : c ≠ [])
    (hsec : IsSection (h ++ b ++ c)) (h3 : 3 ≤ (h ++ b).length) {first : Bool}
    (h0 : first = true ∨ b.getD 0 0 ≠ 0xFF) (fuel : Nat) :
    Trace.Yields SecEvent.callback [] (Holding pid ch g a (h ++ b))
      (secLoop pid ch (fuel + 2) first s b) := by
  obtain ⟨hlt, hle⟩ := hsec.prefix_lt hc h3
  rw [secLoop, if_pos ⟨hb, h0⟩]
  refine (checkSec_prefixOnly hs b h3 hlt hle).bind fun r hr => ?_
  obtain ⟨s', n⟩ := r
  obtain ⟨hs', rfl⟩ := hr
  simp only [List.drop_length, secLoop_nil]
  exact Trace.yields_pure hs'

/-- A packet that ends inside a section header. -/
theorem secLoop_header (hs : Holding pid ch g a [] s) {b : List Byte} (hb : b ≠ [])
    (hlt : b.length < 3) {first : Bool} (h0 : first = true ∨ b.getD 0 0 ≠ 0xFF) (fuel : Nat) :
    Trace.Yields SecEvent.callback [] (Holding pid ch g a []) (secLoop pid ch (fuel + 2) first s b) := by
  rw [secLoop, if_pos ⟨hb, h0⟩]
  obtain ⟨s', he, hs'⟩ := checkSec_short hs b (by simpa using hlt)
  simp only [he, Trace.pure_bind, List.drop_length, secLoop_nil]
  exact Trace.yields_pure hs'

/-- The end of a section and stuffing. -/
theorem secLoop_end (hs : Holding pid ch g a h s) {b : List Byte} (hb : b ≠ [])
    (hsec : IsSection (h ++ b)) (k fuel : Nat) :
    Trace.Yields SecEvent.callback [(a, h ++ b)] (Holding pid ch g a [])
      (secLoop pid ch (fuel + 2) true s (b ++ List.replicate k 0xFF)) := by
  rw [secLoop, if_pos ⟨by simp [hb], .inl rfl⟩, ← List.append_nil [(a, h ++ b)]]
  refine (checkSec_complete hs hsec _).bind fun r hr => ?_
  obtain ⟨s', n⟩ := r
  obtain ⟨hs', rfl⟩ := hr
  simp only [List.drop_left, secLoop_stuffing]
  exact Trace.yields_pure hs'

/-! ## `parse_sec` -/

/-- What the channel counts of a section that goes on in the next packet. -/
def Tail.counted : Tail → List Byte
  | .stuffing _ => []
  | .split b => if b.length < 3 then [] else b

/-- The sections that start in a packet. -/
theorem secLoop_starts (hs : Holding pid ch g a [] s) {ss : List (List Byte)} {t : Tail}
    {is : List Item} (hss : ∀ x ∈ ss, IsSection x) (ht : t.Follows ss)
    (hl : Legal t.held is) :
    Trace.Yields SecEvent.callback (ss.map (a, ·)) (Holding pid ch g a t.counted)
      (secLoop pid ch (secRounds (ss.flatten ++ t.bytes)) true s (ss.flatten ++ t.bytes)) := by
  have hle := length_le_flatten hss
  rw [← List.append_nil (ss.map (a, ·))]
  cases t with
  | stuffing k =>
    obtain ⟨f, hf⟩ : ∃ f, secRounds (ss.flatten ++ List.replicate k 0xFF) = ss.length + (f + 1) := by
      refine ⟨secRounds (ss.flatten ++ List.replicate k 0xFF) - (ss.length + 1), ?_⟩
      simp only [secRounds, List.length_append]; omega
    simp only [Tail.bytes, hf]
    refine secLoop_sections ss hss true hs fun s' hs' => ?_
    have hne : ss.isEmpty = false := by simpa [Tail.Follows] using ht
    rw [hne, Bool.and_false, secLoop_stuffing]
    exact Trace.yields_pure hs'
  | split b =>
    have hb : b ≠ [] := ht
    have hpos := List.length_pos_iff.mpr hb
    obtain ⟨c, hc, hsec⟩ : ∃ c, c ≠ [] ∧ IsSection (b ++ c) := hl.exists_rest hb
    have h0 : b.getD 0 0 ≠ 0xFF := hsec.prefix_tableId hb
    obtain ⟨f, hf⟩ : ∃ f, secRounds (ss.flatten ++ b) = ss.length + (f + 2) := by
      refine ⟨secRounds (ss.flatten ++ b) - (ss.length + 2), ?_⟩
      simp only [secRounds, List.length_append]; omega
    simp only [Tail.bytes, hf]
    refine secLoop_sections ss hss true hs fun s' hs' => ?_
    by_cases hlt : b.length < 3
    · rw [Tail.counted, if_pos hlt]
      exact secLoop_header hs' hb hlt (.inr h0) f
    · rw [Tail.counted, if_neg hlt]
      exact secLoop_prefix hs' hb hc hsec (by simpa using hlt) (.inr h0) f

theorem parseSec_start {E : List (Fin 32 × List Byte)} {r : List Byte} {ss : List (List Byte)}
    {t : Tail} {is : List Item}
    (hr : Trace.Yields SecEvent.callback E (fun x => Listening pid ch g a x.1) (checkSec pid s ch r))
    (hlen : r.length < 256) (hss : ∀ x ∈ ss, IsSection x) (ht : t.Follows ss)
    (hl : Legal t.held is) :
    Trace.Yields SecEvent.callback (E ++ ss.map (a, ·)) (Holding pid ch g a t.counted)
      (parseSec pid s ch (Item.start r ss t).payload true) := by
  have hp : (BitVec.ofNat 8 r.length).toNat = r.length := by
    rw [BitVec.toNat_ofNat]; exact Nat.mod_eq_of_lt hlen
  simp only [parseSec, Item.payload, ↓reduceIte, List.getD_cons_zero, List.drop_succ_cons,
    List.drop_zero, hp, if_pos (show (r ++ (ss.flatten ++ t.bytes)).length ≥ r.length by simp),
    List.take_left, List.drop_left]
  refine hr.bind fun x hx => ?_
  rw [Trace.pure_bind]
  exact secLoop_starts hx.clear hss ht hl

/-! ## Packets -/

/-- A packet of the PID reaches `parse_sec` with its payload. -/
theorem packetStep_bytes {pid : BitVec 13} {p : Packet} (hpid : pid ≠ 0x1FFF) (hfit : p.Fits)
    (hs : Listening pid.toNat ch g a s) :
    packetStep s (p.bytes pid) =
      if p.item.payload = [] then pure s
      else parseSec pid.toNat s ch p.item.payload p.item.isStart >>= fun s' =>
        pure (s'.setChan ch { s'.chan ch with cc := (p.cc.toNat : Int) }) := by
  have hlen := hfit.length_bytes pid
  have hsync : (p.bytes pid).findIdx? (· == 0x47) = some 0 := rfl
  have h1 : (p.bytes pid).getD 1 0 = headByte1 p.item.isStart p.priority (pid.extractLsb' 8 5) := rfl
  have h3 : (p.bytes pid).getD 3 0 =
      headByte3 p.adaptation.isSome (p.item.payload ≠ []) p.cc := rfl
  have hnull : pid.toNat ≠ 0x1FFF := fun h => hpid (BitVec.eq_of_toNat_eq h)
  have hpay := headByte3_payload (decide (p.item.payload ≠ [])) p.adaptation.isSome p.cc
  have hcc : (((p.bytes pid).getD 3 0 &&& 0x0F).toNat : Int) = p.cc.toNat := by
    rw [h3, headByte3_cc]
  have hstart : decide ((p.bytes pid).getD 1 0 &&& 0x40 ≠ 0) = p.item.isStart := by
    rw [h1, Bool.eq_iff_iff, decide_eq_true_iff, headByte1_start]
  simp only [packetStep, parseTsPacket, hsync, Option.getD_some, List.drop_zero, hlen,
    tsPid_bytes, tsPayload_bytes pid hfit, hcc, hstart]
  by_cases hp : p.item.payload = []
  · have hz : ¬ (p.bytes pid).getD 3 0 &&& 0x10 ≠ 0 := by
      rw [h3, hpay]; simp [hp]
    rw [if_neg (Nat.lt_irrefl 188), if_neg (fun h => hz h.2.2.2), if_pos hp, Trace.pure_bind]
  · have hnz : (p.bytes pid).getD 3 0 &&& 0x10 ≠ 0 := by
      rw [h3, hpay]; simp [hp]
    have hok : pid.toNat ≠ 0x1FFF ∧ (p.bytes pid).getD 3 0 &&& 0xC0 = 0 ∧
        (p.bytes pid).getD 1 0 &&& 0x80 = 0 ∧ (p.bytes pid).getD 3 0 &&& 0x10 ≠ 0 :=
      ⟨hnull, by rw [h3, headByte3_scrambling], by rw [h1, headByte1_error], hnz⟩
    simp only [if_pos hok, hs.found, hs.isSec, ↓reduceIte, Nat.lt_irrefl, ne_eq, hp,
      not_false_eq_true, Trace.bind_assoc, Trace.pure_bind]

theorem packetStep_yields {pid : BitVec 13} {p : Packet} {L : List (Fin 32 × List Byte)}
    (hpid : pid ≠ 0x1FFF) (hfit : p.Fits) (hp : p.item.payload ≠ [])
    (hs : Listening pid.toNat ch g a s)
    (h' : Trace.Yields SecEvent.callback L (Holding pid.toNat ch g a h)
      (parseSec pid.toNat s ch p.item.payload p.item.isStart)) :
    Trace.Yields SecEvent.callback L (Holding pid.toNat ch g a h) (packetStep s (p.bytes pid)) := by
  rw [packetStep_bytes hpid hfit hs, if_neg hp, ← List.append_nil L]
  refine h'.bind fun s' hs' => Trace.yields_pure ⟨hs'.setChan rfl hs'.size_le, ?_⟩
  rw [chan_setChan]
  exact hs'.held

/-! ## What the demultiplexer cannot deliver

Out of step the loop may cut anything out of the payloads. The bytes other than
`0xFF` are counted: what is delivered and what the buffer holds was fed. -/

/-- The bytes that are not stuffing. -/
def weight (b : List Byte) : Nat := b.countP (· != 0xFF)

theorem weight_append (b c : List Byte) : weight (b ++ c) = weight b + weight c :=
  List.countP_append

theorem weight_take_drop (b : List Byte) (n : Nat) :
    weight (b.take n) + weight (b.drop n) = weight b := by
  rw [← weight_append, List.take_append_drop]

def cost (e : SecEvent) : Nat := e.callback.elim 0 fun p => weight p.2

theorem dispatch_spends (hs : Listening pid ch g a s) :
    Trace.Spends cost (fun _ => 0) (Listening pid ch g a) (weight (s.chan ch).held)
      (dispatch pid s ch) := by
  unfold dispatch
  rw [hs.findMatch_eq]
  by_cases hm : secMatch (s.dev.dvrFilters g) (s.chan ch).buf = true
  · rw [if_pos hm]
    dsimp only
    rw [hs.handle]
    dsimp only
    rw [Trace.emit_bind, dataCb_of_env hs.env]
    refine ⟨?_, fun _ h => Option.some.inj h ▸ hs⟩
    simp [cost, SecEvent.callback, hs.handle, Trace.leftover, DvrChannel.held]
  · rw [if_neg hm]
    refine ⟨?_, fun _ h => Option.some.inj h ▸ hs⟩
    simp [Trace.emit, cost, SecEvent.callback, Trace.leftover]

theorem checkSec_spends (hs : Listening pid ch g a s) (data : List Byte) :
    Trace.Spends cost (fun r => weight (r.1.chan ch).held + weight (data.drop r.2))
      (fun r => Listening pid ch g a r.1) (weight (s.chan ch).held + weight data)
      (checkSec pid s ch data) := by
  have hsz := length_held hs.size_le
  by_cases hlt : (s.chan ch).size + data.length < 3
  · obtain ⟨s', he, hs'⟩ := checkSec_short hs.holding data (by omega)
    rw [he]
    refine Trace.spends_pure ?_ hs'.toListening
    simp only [hs'.held, List.drop_length]
    exact Nat.add_le_add_left (Nat.zero_le _) _
  · simp only [checkSec, if_neg hlt]
    cases hf : fillSec (s.chan ch) data with
    | none => exact Trace.spends_stop
    | some r =>
      obtain ⟨c, n⟩ := r
      have ha := (fillSec_appends hs.size_le (by omega) hf).1
      have hh := hs.holding.appends ha
      have hw : weight ((s.chan ch).held ++ data.take n) + weight (data.drop n) =
          weight (s.chan ch).held + weight data := by
        rw [weight_append, Nat.add_assoc, weight_take_drop]
      simp only [Trace.ofOption_some, Trace.pure_bind]
      split
      · have hd := (dispatch_spends hh.toListening).frame (weight (data.drop n))
        rw [hh.held, hw] at hd
        refine hd.bind fun s' hs' => Trace.spends_pure ?_ hs'.clear.toListening
        simp only [hs'.clear.held]
        exact Nat.le_refl _
      · refine Trace.spends_pure ?_ hh.toListening
        simp only [hh.held, hw]
        exact Nat.le_refl _

theorem secLoop_spends (fuel : Nat) (first : Bool) (hs : Listening pid ch g a s) (data : List Byte) :
    Trace.Spends cost (fun s' => weight (s'.chan ch).held) (Listening pid ch g a)
      (weight (s.chan ch).held + weight data) (secLoop pid ch fuel first s data) := by
  induction fuel generalizing first s data with
  | zero => exact Trace.spends_stop
  | succ fuel ih =>
    unfold secLoop
    split
    · exact (checkSec_spends hs data).bind fun r hr => ih false hr (data.drop r.2)
    · exact Trace.spends_pure (Nat.le_add_right _ _) hs

/-- A payload is worth its bytes, the `pointer_field` apart. -/
theorem parseSec_spends (hs : Listening pid ch g a s) (data : List Byte) (start : Bool) :
    Trace.Spends cost (fun s' => weight (s'.chan ch).held) (Listening pid ch g a)
      (weight (s.chan ch).held + weight (if start then data.drop 1 else data))
      (parseSec pid s ch data start) := by
  cases start with
  | false => exact secLoop_spends _ _ hs data
  | true =>
    simp only [parseSec, ↓reduceIte]
    generalize (data.getD 0 0).toNat = n
    generalize data.drop 1 = data
    have hw := weight_take_drop data n
    have hrest : ∀ s', Listening pid ch g a s' →
        Trace.Spends cost (fun s' => weight (s'.chan ch).held) (Listening pid ch g a)
          (weight (data.drop n)) (secLoop pid ch (secRounds (data.drop n)) true (s'.clear ch) (data.drop n)) := by
      intro s' hs'
      have := secLoop_spends (secRounds (data.drop n)) true hs'.clear.toListening (data.drop n)
      rw [hs'.clear.held] at this
      simpa [weight] using this
    split
    · have hc := (checkSec_spends hs (data.take n)).frame (weight (data.drop n))
      rw [Nat.add_assoc, hw] at hc
      refine hc.bind fun r hr => ?_
      rw [Trace.pure_bind]
      exact (hrest r.1 hr).mono (Nat.le_add_left _ _)
    · rw [Trace.pure_bind]
      exact (hrest s hs).mono (by omega)

/-- What a packet is worth. -/
def Item.worth (i : Item) : Nat := weight (if i.isStart then i.payload.drop 1 else i.payload)

theorem feed_spends {pid : BitVec 13} (hpid : pid ≠ 0x1FFF) (ps : List Packet)
    (hfit : ∀ p ∈ ps, p.Fits) (hs : Listening pid.toNat ch g a s) :
    Trace.Spends cost (fun _ => 0) (Listening pid.toNat ch g a)
      (weight (s.chan ch).held + (ps.map fun p => p.item.worth).sum)
      (Trace.feed packetStep s (ps.map (Packet.bytes pid))) := by
  induction ps generalizing s with
  | nil => exact Trace.spends_pure (Nat.zero_le _) hs
  | cons p ps ih =>
    have hp := hfit p List.mem_cons_self
    have hps := fun q hq => hfit q (List.mem_cons_of_mem p hq)
    have hstep : Trace.Spends cost (fun s' => weight (s'.chan ch).held) (Listening pid.toNat ch g a)
        (weight (s.chan ch).held + p.item.worth) (packetStep s (p.bytes pid)) := by
      rw [packetStep_bytes hpid hp hs]
      split
      · exact Trace.spends_pure (Nat.le_add_right _ _) hs
      · refine (parseSec_spends hs p.item.payload p.item.isStart).bind fun s' hs' => ?_
        refine Trace.spends_pure ?_ (hs'.setChan rfl hs'.size_le)
        rw [chan_setChan]
        exact Nat.le_refl _
    have h := hstep.frame (ps.map fun p => p.item.worth).sum
    rw [List.map_cons, List.map_cons, List.sum_cons, ← Nat.add_assoc]
    exact h.bind fun s' hs' => ih hps hs'

/-! ## Legal packetisations -/

theorem weight_replicate (k : Nat) : weight (List.replicate k 0xFF) = 0 := by
  simp [weight, List.countP_replicate]

theorem weight_flatten (ss : List (List Byte)) : weight ss.flatten = (ss.map weight).sum := by
  simp [weight, List.countP_flatten]
  rfl

/-- The sections carried weigh what the packets are worth. -/
theorem weight_sections {b : List Byte} {is : List Item} (hl : Legal b is) :
    ((sections b is).map weight).sum = weight b + (is.map Item.worth).sum := by
  induction is generalizing b with
  | nil => rw [show b = [] from hl]; rfl
  | cons i is ih =>
    cases i with
    | skip =>
      have h := ih hl
      simpa [sections, Item.worth, Item.payload, weight] using h
    | cont d =>
      have h := ih hl.2.2
      rw [weight_append] at h
      simp only [sections, h, List.map_cons, List.sum_cons]
      rw [Nat.add_assoc]
      rfl
    | fin d k =>
      have h := ih hl.2.2.2
      have hw : Item.worth (.fin d k) = weight d + 0 := by
        rw [← weight_replicate k, ← weight_append]; rfl
      simp only [sections, List.map_cons, List.sum_cons, h, hw, weight_append]
      simp only [weight, List.countP_nil]
      omega
    | start r ss t =>
      obtain ⟨hr, -, -, hnext⟩ := hl
      have h := ih hnext
      have ht : weight t.bytes = weight t.held := by
        cases t with
        | stuffing k => exact weight_replicate k
        | split d => rfl
      have hw : Item.worth (.start r ss t) = weight r + ((ss.map weight).sum + weight t.held) := by
        rw [← weight_flatten, ← ht, ← weight_append, ← weight_append]; rfl
      have he : ((ended b r).map weight).sum = weight b + weight r := by
        rcases hr with ⟨rfl, rfl⟩ | ⟨hb, -, -⟩
        · rfl
        · simp [ended, hb, weight_append]
      simp only [sections, List.map_append, List.sum_append, List.map_cons, List.sum_cons, h, hw, he]
      omega

/-- The channel holds no complete section. -/
def Idle (h : List Byte) : Prop := h.length < 3 ∨ h.length < secLen (h.getD 1 0) (h.getD 2 0)

/-- The buffer `h` is in step with the section in progress: it holds its bytes
`b`, or anything incomplete when there is none. -/
def InStep (b h : List Byte) : Prop := (b = [] ∧ Idle h) ∨ (3 ≤ b.length ∧ h = b)

theorem InStep.eq_of_ne {b h : List Byte} (hi : InStep b h) (hb : b ≠ []) : h = b := by
  rcases hi with ⟨hn, -⟩ | ⟨-, hh⟩
  · exact absurd hn hb
  · exact hh

/-- The bytes before the `pointer_field`'s target. -/
theorem checkSec_ended {b r : List Byte} (hs : Holding pid ch g a h s) (hi : InStep b h)
    (hr : (b = [] ∧ r = []) ∨ (b ≠ [] ∧ r ≠ [] ∧ IsSection (b ++ r))) :
    Trace.Yields SecEvent.callback ((ended b r).map (a, ·)) (fun x => Listening pid ch g a x.1)
      (checkSec pid s ch r) := by
  have hsz := length_held hs.size_le
  rcases hr with ⟨rfl, rfl⟩ | ⟨hb, -, hsec⟩
  · rcases hi with ⟨-, hidle⟩ | ⟨h3, -⟩
    · by_cases hlt : h.length < 3
      · obtain ⟨s', he, hs'⟩ := checkSec_short hs [] (by simpa using hlt)
        rw [he]
        exact Trace.yields_pure hs'.toListening
      · have hle := hs.size_le
        have hp := checkSec_prefixOnly hs [] (by simpa using hlt)
          (by simpa using hidle.resolve_left hlt) (by rw [List.append_nil, ← hs.length_eq]; exact hle)
        exact hp.mono fun _ hx => hx.1.toListening
    · exact absurd h3 (by decide)
  · obtain rfl := hi.eq_of_ne hb
    have hc := checkSec_complete hs hsec []
    rw [List.append_nil] at hc
    rw [ended, if_neg hb]
    exact hc.mono fun _ hx => hx.1.toListening

/-- The packet does not end inside a section header. -/
def Item.HeaderWhole : Item → Prop
  | .start _ _ (.split b) => 3 ≤ b.length
  | _ => True

/-- What the channel counts after a payload. -/
def Item.counted (b h : List Byte) : Item → List Byte
  | .skip => h
  | .cont d => b ++ d
  | .fin _ _ => []
  | .start _ _ t => t.counted

/-- **One packet in step**: its sections are delivered, whole and in order. -/
theorem packetStep_item {pid : BitVec 13} {p : Packet} {b : List Byte} {is : List Item}
    (hpid : pid ≠ 0x1FFF) (hfit : p.Fits) (hs : Holding pid.toNat ch g a h s) (hi : InStep b h)
    (hl : Legal b (p.item :: is)) :
    Trace.Yields SecEvent.callback ((p.item.completes b).map (a, ·))
      (Holding pid.toNat ch g a (p.item.counted b h)) (packetStep s (p.bytes pid)) := by
  cases hitem : p.item with
  | skip =>
    rw [packetStep_bytes hpid hfit hs.toListening, hitem, Item.payload, if_pos rfl]
    exact Trace.yields_pure hs
  | cont d =>
    rw [hitem] at hl
    obtain ⟨hb, hd, hl⟩ := hl
    obtain rfl := hi.eq_of_ne hb
    have h3 : 3 ≤ h.length := by
      rcases hi with ⟨hn, -⟩ | ⟨h3, -⟩
      · exact absurd hn hb
      · exact h3
    obtain ⟨c, hc, hsec⟩ := hl.exists_rest (by simp [hb])
    refine packetStep_yields hpid hfit (by rw [hitem]; exact hd) hs.toListening ?_
    rw [hitem]
    obtain ⟨f, hf⟩ : ∃ f, secRounds d = f + 2 := by
      have := List.length_pos_iff.mpr hd
      exact ⟨secRounds d - 2, by unfold secRounds; omega⟩
    have := secLoop_prefix hs hd hc hsec (by rw [List.length_append]; omega) (.inl rfl) f
    rwa [← hf] at this
  | fin d k =>
    rw [hitem] at hl
    obtain ⟨hb, hd, hsec, hl⟩ := hl
    obtain rfl := hi.eq_of_ne hb
    refine packetStep_yields hpid hfit (by rw [hitem]; simp [Item.payload, hd]) hs.toListening ?_
    rw [hitem]
    obtain ⟨f, hf⟩ : ∃ f, secRounds (d ++ List.replicate k 0xFF) = f + 2 := by
      have := List.length_pos_iff.mpr hd
      exact ⟨secRounds (d ++ List.replicate k 0xFF) - 2, by
        unfold secRounds; rw [List.length_append]; omega⟩
    have := secLoop_end hs hd hsec k f
    rwa [← hf] at this
  | start r ss t =>
    rw [hitem] at hl
    obtain ⟨hr, hss, ht, hl⟩ := hl
    have hlen : r.length < 256 := by
      unfold Packet.Fits at hfit
      rw [hitem] at hfit
      simp only [Item.payload, List.length_cons, List.length_append] at hfit
      omega
    refine packetStep_yields hpid hfit (by rw [hitem]; simp [Item.payload]) hs.toListening ?_
    rw [hitem, Item.completes, List.map_append]
    exact parseSec_start (checkSec_ended hs hi hr) hlen hss ht hl

/-- A packet that does not end inside a section header keeps the channel in step. -/
theorem InStep.next {b : List Byte} {i : Item} {is : List Item} (hi : InStep b h)
    (hl : Legal b (i :: is)) (hw : i.HeaderWhole) : InStep (i.after b) (i.counted b h) := by
  cases i with
  | skip => exact hi
  | cont d =>
    rcases hi with ⟨hn, -⟩ | ⟨h3, -⟩
    · exact absurd hn hl.1
    · exact .inr ⟨by rw [Item.after, List.length_append]; omega, rfl⟩
  | fin d k => exact .inl ⟨rfl, .inl (show 0 < 3 by decide)⟩
  | start r ss t =>
    cases t with
    | stuffing k => exact .inl ⟨rfl, .inl (show 0 < 3 by decide)⟩
    | split d =>
      have h3 : 3 ≤ d.length := hw
      exact .inr ⟨h3, by simp [Item.counted, Item.after, Tail.counted, Tail.held, Nat.not_lt.mpr h3]⟩

theorem sum_cost (es : List SecEvent) :
    (es.map cost).sum = ((es.filterMap SecEvent.callback).map fun p => weight p.2).sum := by
  induction es with
  | nil => rfl
  | cons e es ih =>
    cases hc : e.callback with
    | none => simp [cost, hc, ih]
    | some p => simp [cost, hc, ih]

/-- A section whose first bytes are lost is not delivered, nor is anything in its
place. -/
theorem feed_ne {pid : BitVec 13} {b : List Byte} {ps : List Packet} (hpid : pid ≠ 0x1FFF)
    (hfit : ∀ p ∈ ps, p.Fits) (hs : Holding pid.toNat ch g a [] s) (hb : b ≠ [])
    (hl : Legal b (ps.map Packet.item)) :
    (Trace.feed packetStep s (ps.map (Packet.bytes pid))).events.filterMap SecEvent.callback ≠
      (sections b (ps.map Packet.item)).map (a, ·) := by
  intro he
  obtain ⟨c, -, hsec⟩ := hl.exists_rest hb
  have hpos : 0 < weight b := by
    cases b with
    | nil => exact absurd rfl hb
    | cons x b =>
      have hx : x ≠ 0xFF := hsec.prefix_tableId hb
      exact List.countP_pos_iff.mpr ⟨x, List.mem_cons_self, bne_iff_ne.mpr hx⟩
  have hle := (feed_spends hpid ps hfit hs.toListening).le
  have hw := weight_sections hl
  have h0 : weight [] = 0 := rfl
  have hsum : ((ps.map Packet.item).map Item.worth).sum = (ps.map fun p => p.item.worth).sum := by
    rw [List.map_map]; rfl
  have hall : (((sections b (ps.map Packet.item)).map (a, ·)).map fun p => weight p.2).sum =
      ((sections b (ps.map Packet.item)).map weight).sum := by
    rw [List.map_map]; rfl
  rw [sum_cost, he, hs.held] at hle
  omega

/-- In step, the sections are delivered exactly when no packet ends inside a
section header. -/
theorem feed_iff {pid : BitVec 13} {b : List Byte} {ps : List Packet} (hpid : pid ≠ 0x1FFF)
    (hfit : ∀ p ∈ ps, p.Fits) (hs : Holding pid.toNat ch g a h s) (hi : InStep b h)
    (hl : Legal b (ps.map Packet.item)) :
    (Trace.feed packetStep s (ps.map (Packet.bytes pid))).events.filterMap SecEvent.callback =
      (sections b (ps.map Packet.item)).map (a, ·) ↔ ∀ p ∈ ps, p.item.HeaderWhole := by
  induction ps generalizing s b h with
  | nil => simp [Trace.feed, sections]
  | cons p ps ih =>
    have hp := hfit p List.mem_cons_self
    have hps := fun q hq => hfit q (List.mem_cons_of_mem p hq)
    rw [List.map_cons] at hl
    obtain ⟨s', hs', hseen⟩ := (packetStep_item hpid hp hs hi hl).seen_bind
      fun s => Trace.feed packetStep s (ps.map (Packet.bytes pid))
    have hfeed : (Trace.feed packetStep s ((p :: ps).map (Packet.bytes pid))).events.filterMap
        SecEvent.callback = _ := hseen
    rw [hfeed, List.map_cons, sections_cons, List.map_append, List.append_cancel_left_eq,
      List.forall_mem_cons]
    by_cases hw : p.item.HeaderWhole
    · rw [ih hps hs' (hi.next hl hw) hl.tail]
      simp [hw]
    · refine iff_of_false ?_ (fun h => hw h.1)
      -- the packet ends inside the header of a section that starts in it
      cases hitem : p.item with
      | skip => rw [hitem] at hw; exact absurd trivial hw
      | cont d => rw [hitem] at hw; exact absurd trivial hw
      | fin d k => rw [hitem] at hw; exact absurd trivial hw
      | start r ss t =>
        cases t with
        | stuffing k => rw [hitem] at hw; exact absurd trivial hw
        | split d =>
          rw [hitem] at hw hs' hl
          have hlt : d.length < 3 := Nat.not_le.mp hw
          have hs0 : Holding pid.toNat ch g a [] s' := by
            simpa [Item.counted, Tail.counted, hlt] using hs'
          exact feed_ne hpid hps hs0 hl.2.2.1 hl.tail

end

/-- **Sections through the DVR demultiplexer.** For a channel with one filter that
accepts every section, and any legal packetisation of a list of sections,
`data_cb` is called with exactly those sections, in order, if and only if no
packet ends inside the three header bytes of a section. -/
theorem sections_delivered_iff {pid : BitVec 13} {ch g a : Fin 32} {s : St} {ps : List Packet}
    (hpid : pid ≠ 0x1FFF) (hs : Listening pid.toNat ch g a s) (hidle : Idle (s.chan ch).held)
    (hfit : ∀ p ∈ ps, p.Fits) (hl : Legal [] (ps.map Packet.item)) :
    (Trace.feed packetStep s (ps.map (Packet.bytes pid))).events.filterMap SecEvent.callback =
        (sections [] (ps.map Packet.item)).map (a, ·) ↔
      ∀ p ∈ ps, p.item.HeaderWhole :=
  feed_iff hpid hfit hs.holding (.inl ⟨rfl, hidle⟩) hl

/-! ### An open filter -/

/-- The device with one section filter on `pid` that looks at no byte. -/
def openSections (pid : BitVec 16) : Dev :=
  (runOps dvrOpen [.allocateFilter, .setSecFilter 0 ⟨pid, fun _ => 0, fun _ => 0, fun _ => 0⟩,
    .startFilter 0]).getD dvrOpen

theorem matchLoop_unmasked {f : DvrFilter} (h1 : ∀ i, f.maskandmode i = 0)
    (h2 : ∀ i, f.maskandnotmode i = 0) (b : List Byte) (is : List (Fin 16)) :
    matchLoop f b is false false = true := by
  induction is with
  | nil => rfl
  | cons i is ih => simpa [matchLoop, h1, h2] using ih

theorem listening_openSections :
    Listening (0x11 : BitVec 13).toNat 0 0 0 ⟨openSections 0x11, []⟩ where
  env := rfl
  found := by decide +kernel
  isSec := by decide +kernel
  filters := by decide +kernel
  handle := by decide +kernel
  accepts := fun b _ => matchLoop_unmasked (by decide +kernel) (by decide +kernel) b _
  size_le := by decide +kernel

theorem idle_openSections : Idle ((St.mk (openSections 0x11) []).chan 0).held := by
  have h : ((St.mk (openSections 0x11) []).chan 0).size = 0 := by decide +kernel
  refine .inl ?_
  rw [DvrChannel.held, h, List.take_zero]
  exact Nat.zero_lt_succ 2

/-- A section of three bytes. -/
theorem isSection_short : IsSection [0x42, 0, 0] := ⟨by decide, by decide, by decide, by decide⟩

theorem isSection_eight : IsSection [0x46, 0, 5, 1, 2, 3, 4, 5] :=
  ⟨by decide, by decide, by decide, by decide⟩

/-- The part of a section of 300 bytes that its first packet has room for. -/
def longHead : List Byte := [0x4E, 0xF1, 0x29] ++ List.replicate 169 7

/-- The part that the second packet carries. -/
def longTail : List Byte := List.replicate 128 7

theorem length_longHead : longHead.length = 172 := by
  rw [longHead, List.length_append, List.length_replicate]
  rfl

theorem isSection_long : IsSection (longHead ++ longTail) where
  header := by rw [List.length_append, length_longHead]; omega
  length_eq := by rw [List.length_append, length_longHead, longTail, List.length_replicate]; rfl
  length_le := by rw [List.length_append, length_longHead, longTail, List.length_replicate]; omega
  tableId := by rw [longHead]; decide

/-- Four sections in two packets; the long one is split behind its header. -/
def wholePackets : List Packet :=
  [⟨.start [] [[0x42, 0, 0], [0x46, 0, 5, 1, 2, 3, 4, 5]] (.split longHead), false, 0, none⟩,
    ⟨.start longTail [[0x42, 0, 0]] (.stuffing 52), true, 1, none⟩]

/-- The short section, its first byte at the end of a packet. -/
def splitPackets : List Packet :=
  [⟨.start [] [] (.split [0x42]), false, 0, some (List.replicate 181 0xFF)⟩,
    ⟨.fin [0, 0] 182, false, 1, none⟩]

theorem fits_splitPackets : ∀ p ∈ splitPackets, p.Fits := by
  refine List.forall_mem_cons.2 ⟨?_, List.forall_mem_singleton.2 ?_⟩
  · simp only [Packet.Fits, Packet.adaptationBytes, Item.payload, Tail.bytes, List.flatten_nil,
      List.length_cons, List.length_append, List.length_nil, List.length_replicate]
  · simp only [Packet.Fits, Packet.adaptationBytes, Item.payload, List.length_cons,
      List.length_append, List.length_nil, List.length_replicate]

theorem legal_splitPackets : Legal [] (splitPackets.map Packet.item) :=
  ⟨.inl ⟨rfl, rfl⟩, fun _ h => absurd h List.not_mem_nil, List.cons_ne_nil _ _,
    List.cons_ne_nil _ _, List.cons_ne_nil _ _, isSection_short, rfl⟩

theorem legal_wholePackets : Legal [] (wholePackets.map Packet.item) := by
  refine ⟨.inl ⟨rfl, rfl⟩, ?_, List.cons_ne_nil _ _, ?_⟩
  · exact List.forall_mem_cons.2 ⟨isSection_short, List.forall_mem_singleton.2 isSection_eight⟩
  · exact ⟨.inr ⟨List.cons_ne_nil _ _, List.cons_ne_nil _ _, isSection_long⟩,
      List.forall_mem_singleton.2 isSection_short, List.cons_ne_nil _ _, rfl⟩

theorem fits_wholePackets : ∀ p ∈ wholePackets, p.Fits := by
  refine List.forall_mem_cons.2 ⟨?_, List.forall_mem_singleton.2 ?_⟩
  · simp only [Packet.Fits, Packet.adaptationBytes, Item.payload, Tail.bytes, List.flatten_cons,
      List.flatten_nil, List.length_cons, List.length_append, List.length_nil, length_longHead]
  · simp only [Packet.Fits, Packet.adaptationBytes, Item.payload, Tail.bytes, List.flatten_cons,
      List.flatten_nil, List.length_cons, List.length_append, List.length_nil, longTail,
      List.length_replicate]

theorem sections_delivered_four :
    (Trace.feed packetStep ⟨openSections 0x11, []⟩
      (wholePackets.map (Packet.bytes 0x11))).events.filterMap SecEvent.callback =
        [(0, [0x42, 0, 0]), (0, [0x46, 0, 5, 1, 2, 3, 4, 5]), (0, longHead ++ longTail),
          (0, [0x42, 0, 0])] := by
  have hsplit : 3 ≤ longHead.length := by rw [length_longHead]; omega
  have hwhole : ∀ p ∈ wholePackets, p.item.HeaderWhole :=
    List.forall_mem_cons.2 ⟨hsplit, List.forall_mem_singleton.2 trivial⟩
  exact (sections_delivered_iff (by decide) listening_openSections idle_openSections
    fits_wholePackets legal_wholePackets).2 hwhole

/-- A section whose first byte ends a packet is not delivered. -/
theorem section_lost_at_split :
    (Trace.feed packetStep ⟨openSections 0x11, []⟩
      (splitPackets.map (Packet.bytes 0x11))).events.filterMap SecEvent.callback ≠
        (sections [] (splitPackets.map Packet.item)).map (0, ·) := by
  have hiff := feed_iff (by decide) fits_splitPackets listening_openSections.holding
    (.inl ⟨rfl, idle_openSections⟩) legal_splitPackets
  intro h
  exact absurd (hiff.1 h _ List.mem_cons_self) (show ¬ 3 ≤ 1 by decide)

end VendorAmlogic.Demux
