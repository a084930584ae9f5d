import VendorAmlogic.Demux.EmuRing

/-!
# The emulated demultiplexer: one payload

What `parse_payload` does with a payload that carries sections, by the stage of
the channel. `Ready` is a section filter whose ring holds whole sections;
`Channel.Keeps` a channel in the middle of a section.
-/

namespace VendorAmlogic.Demux.Emu

open VendorAmlogic.Lib VendorAmlogic.Demux

/-! ## The ring of a filter -/

theorem matchLoop_congr {f f' : Filter} (h1 : f'.value = f.value)
    (h2 : f'.maskandmode = f.maskandmode) (h3 : f'.maskandnotmode = f.maskandnotmode)
    (h4 : f'.neq = f.neq) (b : Mem) (is : List (Fin 18)) (neq : Bool) :
    matchLoop f' b is neq = matchLoop f b is neq := by
  induction is generalizing neq with
  | nil => simp only [matchLoop, h4]
  | cons i is ih => simp only [matchLoop, h1, h2, h3, ih]

/-- An enabled filter for all sections on `pid`, with the sections `q` in its ring. -/
structure Ready (pid : Nat) (q : List (List Byte)) (f : Filter) : Prop where
  enable : f.enable = true
  type : f.type = .sec
  pid : f.pid.toNat = pid
  accepts : ∀ b : Mem, b 0 ≠ 0xFF → secMatch f b = true
  room : 4096 ≤ f.bufSize
  start_lt : f.start < f.bufSize
  bytes : f.bytes = q.flatten.length
  bytes_le : f.bytes ≤ f.bufSize
  ring : ringGet f.bufSize f.buf f.start f.bytes = q.flatten

section
variable {pid : Nat} {q : List (List Byte)} {f : Filter} {d : List Byte}

theorem Ready.holds (h : Ready pid q f) : RingHolds f q.flatten :=
  ⟨h.start_lt, h.bytes, h.bytes_le, h.ring⟩

theorem Ready.putSec (h : Ready pid q f) (hd : f.bytes + d.length ≤ f.bufSize) :
    ∃ f', Emu.putSec f d = some f' ∧ Ready pid (q ++ [d]) f' := by
  obtain ⟨hput, hholds⟩ := h.holds.putSec hd
  refine ⟨_, hput, h.enable, h.type, h.pid, fun b hb => ?_, h.room, h.start_lt, ?_, hd, ?_⟩
  · exact (matchLoop_congr rfl rfl rfl rfl b _ _).trans (h.accepts b hb)
  · simpa using hholds.bytes
  · simpa using hholds.ring

/-- `emu_read` takes the oldest section. -/
theorem Ready.emuRead {s : List Byte} (h : Ready pid (s :: q) f) (hs : IsSection s) :
    ∃ f', Emu.emuRead f 4096 = (f', some s) ∧ Ready pid q f' ∧ f'.bytes < f.bytes := by
  have h3 := hs.header
  have hbytes : f.bytes = s.length + q.flatten.length := by simp [h.bytes]
  obtain ⟨hread, hrest⟩ := h.holds.emuRead hs.isWhole h.type 4096
  rw [List.take_of_length_le hs.length_le] at hread
  refine ⟨_, hread, ⟨h.enable, h.type, h.pid, fun b hb => ?_, h.room, hrest.start_lt, hrest.bytes,
    hrest.bytes_le, hrest.ring⟩, ?_⟩
  · exact (matchLoop_congr rfl rfl rfl rfl b _ _).trans (h.accepts b hb)
  · change f.bytes - s.length < _
    omega

theorem Ready.emuRead_nil (h : Ready pid [] f) : Emu.emuRead f 4096 = (f, none) :=
  h.holds.emuRead_nil 4096

end

/-- Filter `i` is the first section filter of the PID, with the sections `q` in its ring. -/
structure Listening (i pid : Nat) (q : List (List Byte)) (fs : List Filter) : Prop where
  filter : ∃ f, fs[i]? = some f ∧ Ready pid q f
  first : ∀ j f, j < i → fs[j]? = some f →
    ¬ (f.enable = true ∧ f.type = .sec ∧ f.pid.toNat = pid)

section
variable {i pid : Nat} {q : List (List Byte)} {fs : List Filter} {c : Channel}

theorem Listening.set (h : Listening i pid q fs) {q' : List (List Byte)} {f : Filter}
    (hf : Ready pid q' f) : Listening i pid q' (fs.set i f) where
  filter := by
    obtain ⟨g, hg, -⟩ := h.filter
    have hi : i < fs.length := (List.getElem?_eq_some_iff.mp hg).1
    exact ⟨f, by simp [hi], hf⟩
  first := fun j g hj hg => by
    rw [List.getElem?_set_ne (by omega)] at hg
    exact h.first j g hj hg

theorem Listening.findFilter (h : Listening i pid q fs) (hp : c.pid = pid) (ht : c.type = .sec)
    (h0 : c.buf 0 ≠ 0xFF) : Emu.findFilter fs c = some i := by
  obtain ⟨f, hf, hr⟩ := h.filter
  unfold Emu.findFilter
  obtain ⟨hi, hfi⟩ := List.getElem?_eq_some_iff.mp hf
  rw [List.findIdx?_eq_some_iff_getElem]
  refine ⟨hi, ?_, fun j hj => ?_⟩
  · simp [hfi, hr.enable, hr.type, hr.pid, hr.accepts c.buf h0, hp, ht]
  · have := h.first j fs[j] hj (List.getElem?_eq_getElem _)
    simp only [ht, hp, Bool.not_eq_true, Bool.and_eq_false_iff, beq_eq_false_iff_ne]
    by_contra hn
    push Not at hn
    exact this ⟨by simpa using hn.1.1.1, hn.1.1.2, hn.1.2⟩

end

/-! ## The channel -/

/-- The bytes a channel has collected. -/
def Channel.held (c : Channel) : List Byte := c.buf.read 0 c.bytes

/-- The channel has collected the part `a` of a section. -/
def Channel.Keeps (c : Channel) (a : List Byte) : Prop :=
  a = [] ∨ (c.stage = .data ∧ c.type = .sec ∧ c.held = a)

/-- What follows the last section is stuffing, or a section that goes on. -/
def GoesOn : Tail → Prop
  | .stuffing _ => True
  | .split b => b ≠ [] ∧ ∃ c, c ≠ [] ∧ IsSection (b ++ c)

section
variable {i pid : Nat} {q ss : List (List Byte)} {p : TSParser} {c : Channel} {t : Tail}
  {x : List Byte}

@[simp] theorem Channel.length_held (c : Channel) : c.held.length = c.bytes := by
  simp [Channel.held]

theorem Channel.bytes_eq (h : c.held = x) : c.bytes = x.length := by
  rw [← h, Channel.length_held]

theorem Channel.buf_eq (h : c.held = x) {k : Nat} (hk : k < x.length) : c.buf k = x.getD k 0 := by
  have hb := Channel.bytes_eq h
  rw [← h, Channel.held, Mem.getD_read (by omega), Nat.zero_add]

theorem Channel.held_dropFirst (c : Channel) (n : Nat) : (c.dropFirst n).held = c.held.drop n := by
  unfold Channel.held Channel.dropFirst
  have h := Mem.read_copy c.buf (c.buf.read n (c.bytes - n))
  rw [Mem.length_read] at h
  rw [h, Mem.drop_read, Nat.zero_add]

/-- What is left of a section that goes on stays in the channel. -/
theorem retry_split {b : List Byte} {fuel : Nat} (hs : c.stage = .data) (ht : c.type = .sec)
    (hb : GoesOn (.split b)) (hh : c.held = b) : retry (fuel + 1) p c = some (p, c) := by
  obtain ⟨hne, rest, hrest, hsec⟩ := hb
  have hpos := List.length_pos_iff.mpr hne
  have hbytes := Channel.bytes_eq hh
  have h0 := hsec.prefix_tableId hne
  rw [← Channel.buf_eq hh hpos] at h0
  unfold retry
  rw [if_pos hs]
  simp only [ht]
  rw [if_neg (by omega), if_neg h0]
  by_cases h3 : c.bytes < 3
  · rw [if_pos h3]
  · have hlt := (hsec.prefix_lt hrest (by omega)).1
    rw [← Channel.buf_eq hh (by omega), ← Channel.buf_eq hh (by omega)] at hlt
    rw [if_neg h3, if_pos (by omega)]

theorem retry_stuffing {k fuel : Nat} (hs : c.stage = .data) (ht : c.type = .sec)
    (hh : c.held = List.replicate k 0xFF) (hk : 0 < k) :
    retry (fuel + 1) p c = some (p, { c with stage := .finish, bytes := 0 }) := by
  have hbytes := Channel.bytes_eq hh
  rw [List.length_replicate] at hbytes
  have h0 : c.buf 0 = 0xFF := by
    rw [Channel.buf_eq hh (by simpa using hk)]
    simp [List.getD_eq_getElem?_getD, hk]
  unfold retry
  rw [if_pos hs]
  simp only [ht]
  rw [if_neg (by omega), if_pos h0]

/-- A whole section goes to the filter. -/
theorem retry_section {s : List Byte} (fuel : Nat) (hl : Listening i pid q p.filters)
    (hs : c.stage = .data) (ht : c.type = .sec) (hp : c.pid = pid) (hh : c.held = s ++ x)
    (hsec : IsSection s) (hroom : q.flatten.length + s.length ≤ 4096) :
    ∃ fs, Listening i pid (q ++ [s]) fs ∧ retry (fuel + 1) p c =
      if x ≠ [] then retry fuel { p with filters := fs } (c.dropFirst s.length)
      else some ({ p with filters := fs }, c.dropFirst s.length) := by
  have h3 := hsec.header
  have hbytes := Channel.bytes_eq hh
  rw [List.length_append] at hbytes
  have hget : ∀ k, k < 3 → c.buf k = s.getD k 0 := by
    intro k hk
    rw [Channel.buf_eq hh (by rw [List.length_append]; omega), List.getD_append s _ 0 k (by omega)]
  have h0 : c.buf 0 ≠ 0xFF := by
    rw [hget 0 (by omega)]
    exact hsec.tableId
  have hlen : secLen (c.buf 1) (c.buf 2) = s.length := by
    rw [hget 1 (by omega), hget 2 (by omega)]
    exact hsec.length_eq.symm
  have hread : c.buf.read 0 s.length = s := by
    rw [← Mem.take_read c.buf 0 (n := c.bytes) (by omega)]
    exact (congrArg (List.take s.length) hh).trans List.take_left
  obtain ⟨f, hf, hr⟩ := hl.filter
  have hfit : f.bytes + s.length ≤ f.bufSize := by
    have := hr.bytes; have := hr.room
    omega
  obtain ⟨f', hput, hr'⟩ := hr.putSec hfit
  refine ⟨p.filters.set i f', hl.set hr', ?_⟩
  have hdrop : (c.dropFirst s.length).bytes ≠ 0 ↔ x ≠ [] := by
    rw [← Channel.length_held, Channel.held_dropFirst, hh, List.drop_left]
    simp
  conv_lhs => unfold retry
  rw [if_pos hs]
  simp only [ht]
  rw [if_neg (by omega), if_neg h0, if_neg (by omega), hlen, if_neg (by omega),
    hl.findFilter hp ht h0]
  simp only [hf, hread, hput, Option.map_some]
  simp only [hdrop]

/-- **From `retry` on**: the whole sections go to the filter, in order, and the
channel keeps what goes on. -/
theorem retry_sections {fuel : Nat} (hl : Listening i pid q p.filters) (hs : c.stage = .data)
    (ht : c.type = .sec) (hp : c.pid = pid) (hh : c.held = ss.flatten ++ t.bytes)
    (hss : ∀ s ∈ ss, IsSection s) (hgo : GoesOn t) (hroom : (q ++ ss).flatten.length ≤ 4096)
    (hpos : 0 < c.bytes) (hfuel : c.bytes ≤ fuel) :
    ∃ fs c', retry fuel p c = some ({ p with filters := fs }, c') ∧
      Listening i pid (q ++ ss) fs ∧ c'.Keeps t.held := by
  induction ss generalizing fuel p c q with
  | nil =>
    obtain ⟨fuel, rfl⟩ := Nat.exists_eq_add_one_of_ne_zero (n := fuel) (by omega)
    rw [List.append_nil]
    cases t with
    | stuffing k =>
      have hk : 0 < k := by simpa [Tail.bytes, Channel.bytes_eq hh] using hpos
      exact ⟨_, _, retry_stuffing hs ht hh hk, hl, .inl rfl⟩
    | split b => exact ⟨_, _, retry_split hs ht hgo hh, hl, .inr ⟨hs, ht, hh⟩⟩
  | cons s ss ih =>
    obtain ⟨fuel, rfl⟩ := Nat.exists_eq_add_one_of_ne_zero (n := fuel) (by omega)
    have hsec := hss s List.mem_cons_self
    have h3 := hsec.header
    rw [List.flatten_cons, List.append_assoc] at hh
    simp only [List.flatten_append, List.flatten_cons, List.length_append] at hroom
    obtain ⟨fs, hl', heq⟩ := retry_section fuel hl hs ht hp hh hsec (by omega)
    have hd : (c.dropFirst s.length).held = ss.flatten ++ t.bytes := by
      rw [Channel.held_dropFirst, hh, List.drop_left]
    have hb := Channel.bytes_eq hd
    have hb' := Channel.bytes_eq hh
    rw [List.length_append] at hb'
    rw [heq, List.append_cons]
    by_cases hx : ss.flatten ++ t.bytes = []
    · -- the payload ends with the section
      obtain ⟨h1, h2⟩ := List.append_eq_nil_iff.mp hx
      have hnil : ss = [] := by
        by_contra hne
        obtain ⟨y, ys, rfl⟩ := List.exists_cons_of_ne_nil hne
        have := (hss y (by simp)).header
        rw [List.flatten_cons, List.append_eq_nil_iff] at h1
        rw [h1.1] at this
        exact absurd this (by decide)
      subst hnil
      rw [if_neg (by simp [h2]), List.append_nil]
      refine ⟨fs, _, rfl, hl', ?_⟩
      cases t with
      | stuffing k => exact .inl rfl
      | split b => exact absurd h2 hgo.1
    · rw [if_pos hx]
      have hlt := List.length_pos_iff.mpr hx
      have hroom' : ((q ++ [s]) ++ ss).flatten.length ≤ 4096 := by
        simp only [List.flatten_append, List.flatten_singleton, List.length_append]
        omega
      exact ih (p := { p with filters := fs }) (c := c.dropFirst s.length) hl' hs ht hp hd
        (fun y hy => hss y (List.mem_cons_of_mem _ hy)) hroom' (by omega) (by omega)

end

/-! ## The stages -/

/-- The channel is taken for one of PES data; sections on it are lost. -/
def Channel.Lost (c : Channel) : Prop :=
  c.type = .pes ∧ ((c.stage = .pts ∧ c.bytes < 14) ∨ (c.stage = .data ∧ c.bytes < 3))

section
variable {i pid : Nat} {q ss : List (List Byte)} {p : TSParser} {c : Channel} {t : Tail}
  {fs : List Filter}

theorem flatten_short (hss : ∀ s ∈ ss, IsSection s) (h : ss.flatten.length < 3) : ss = [] := by
  cases ss with
  | nil => rfl
  | cons s ss =>
    have h3 := (hss s List.mem_cons_self).header
    rw [List.flatten_cons, List.length_append] at h
    omega

theorem follows_ne_nil (hss : ∀ s ∈ ss, IsSection s) (h : t.Follows ss) :
    ss.flatten ++ t.bytes ≠ [] := by
  intro hnil
  obtain ⟨h1, h2⟩ := List.append_eq_nil_iff.mp hnil
  have hs : ss = [] := flatten_short hss (by rw [h1]; decide)
  cases t with
  | stuffing k => exact h hs
  | split b => exact h h2

theorem Listening.putPes (h : Listening i pid q fs) (ht : c.type = .pes) :
    Listening i pid q (Emu.putPes fs c) := by
  unfold Emu.putPes
  split
  · exact h
  · rename_i j hj
    obtain ⟨hlt, hfj, -⟩ := List.findIdx?_eq_some_iff_getElem.mp hj
    obtain ⟨f, hf, hr⟩ := h.filter
    have hne : j ≠ i := by
      rintro rfl
      rw [List.getElem?_eq_getElem hlt] at hf
      simp [Option.some.inj hf, hr.type, ht] at hfj
    refine ⟨⟨f, by rw [List.getElem?_modify_ne _ _ hne]; exact hf, hr⟩, fun k g hk hg => ?_⟩
    by_cases hkj : j = k
    · subst hkj
      rw [List.getElem?_modify_eq, List.getElem?_eq_getElem hlt] at hg
      obtain rfl := Option.some.inj hg
      exact h.first j fs[j] hk (List.getElem?_eq_getElem hlt)
    · rw [List.getElem?_modify_ne _ _ hkj] at hg
      exact h.first k g hk hg

theorem parseData_sections (hl : Listening i pid q p.filters) (hs : c.stage = .data)
    (ht : c.type = .sec) (hp : c.pid = pid) (hh : c.held = ss.flatten ++ t.bytes)
    (hss : ∀ s ∈ ss, IsSection s) (hgo : GoesOn t) (hf : t.Follows ss)
    (hroom : (q ++ ss).flatten.length ≤ 4096) :
    ∃ p' c', parseData p c = some (p', c') ∧ Listening i pid (q ++ ss) p'.filters ∧ c'.Keeps t.held := by
  have hpos : 0 < c.bytes := by
    rw [Channel.bytes_eq hh]
    exact List.length_pos_iff.mpr (follows_ne_nil hss hf)
  obtain ⟨fs, c', h1, h2, h3⟩ :=
    retry_sections hl hs ht hp hh hss hgo hroom hpos (Nat.le_refl c.bytes)
  unfold parseData
  rw [if_neg (by omega)]
  exact ⟨_, c', h1, h2, h3⟩

theorem parseData_pes (hl : Listening i pid q p.filters) (hs : c.stage = .data)
    (ht : c.type = .pes) :
    ∃ p' c', parseData p c = some (p', c') ∧ Listening i pid q p'.filters ∧ c'.Lost := by
  unfold parseData
  split
  · exact ⟨p, c, rfl, hl, ht, .inr ⟨hs, by omega⟩⟩
  · obtain ⟨n, hn⟩ := Nat.exists_eq_add_one_of_ne_zero ‹_›
    rw [hn]
    unfold retry
    rw [if_pos hs]
    simp only [ht]
    exact ⟨_, _, rfl, hl.putPes ht, rfl, .inr ⟨hs, Nat.zero_lt_succ _⟩⟩

/-- The time stamp of PES data: the filters and the stage stay as they are. -/
theorem takePts_eq {p' : TSParser} {c' : Channel} (h : takePts p c = some (p', c')) :
    ∃ rate pts offset, p' = { p with rate := rate } ∧ c' = { c with pts := pts, offset := offset } := by
  unfold takePts at h
  split at h
  · cases h
    exact ⟨_, _, _, rfl, rfl⟩
  · dsimp only at h
    split at h
    · split at h
      · cases h
      · cases h
        exact ⟨_, _, _, rfl, rfl⟩
    · cases h
      exact ⟨_, _, _, rfl, rfl⟩

theorem parseStages_of_data (hs : c.stage = .data) : parseStages p c = parseData p c := by
  simp [parseStages, hs]

theorem parseStages_of_pts (hs : c.stage = .pts) :
    parseStages p c = if c.bytes < 14 then some (p, c)
      else (takePts p c).bind fun r => parseData r.1 { r.2 with stage := .data } := by
  simp [parseStages, hs]

theorem parseStages_of_pes (hs : c.stage = .header)
    (hpes : c.buf 0 = 0 ∧ c.buf 1 = 0 ∧ c.buf 2 = 1) :
    parseStages p c = parseStages p { c with type := .pes, stage := .pts } := by
  simp [parseStages, hs, hpes]

theorem parseStages_of_ptr (hs : c.stage = .header)
    (hpes : ¬ (c.buf 0 = 0 ∧ c.buf 1 = 0 ∧ c.buf 2 = 1)) :
    parseStages p c = if c.bytes < (c.buf 0).toNat + 1 then some (p, { c with type := .sec, stage := .ptr })
      else parseData p { c.dropFirst ((c.buf 0).toNat + 1) with type := .sec, stage := .data } := by
  simp only [parseStages, hs, if_true, if_neg hpes, reduceCtorEq, if_false]
  rfl

/-- PES data: nothing goes to the section filter. -/
theorem parseStages_pts (hl : Listening i pid q p.filters) (hs : c.stage = .pts)
    (ht : c.type = .pes) {p' : TSParser} {c' : Channel}
    (h : parseStages p c = some (p', c')) : Listening i pid q p'.filters ∧ c'.Lost := by
  rw [parseStages_of_pts hs] at h
  split at h
  · cases h
    exact ⟨hl, ht, .inl ⟨hs, ‹_›⟩⟩
  · obtain ⟨⟨p1, c1⟩, h1, h⟩ := Option.bind_eq_some_iff.mp h
    obtain ⟨rate, pts, offset, rfl, rfl⟩ := takePts_eq h1
    obtain ⟨p2, c2, h2, hlv, hlost⟩ := parseData_pes (p := { p with rate := rate })
      (c := { c with pts := pts, offset := offset, stage := .data }) hl rfl ht
    rw [h2] at h
    cases h
    exact ⟨hlv, hlost⟩

/-- A payload that the header does not make PES data: the `pointer_field` and the
bytes it points over are dropped. -/
theorem parseStages_ptr {n : Byte} {r : List Byte} (hl : Listening i pid q p.filters)
    (hs : c.stage = .header) (hp : c.pid = pid)
    (hh : c.held = n :: (r ++ (ss.flatten ++ t.bytes))) (hn : n.toNat = r.length)
    (hpes : ¬ (c.buf 0 = 0 ∧ c.buf 1 = 0 ∧ c.buf 2 = 1))
    (hss : ∀ s ∈ ss, IsSection s) (hgo : GoesOn t) (hf : t.Follows ss)
    (hroom : (q ++ ss).flatten.length ≤ 4096) :
    ∃ p' c', parseStages p c = some (p', c') ∧ Listening i pid (q ++ ss) p'.filters ∧
      c'.Keeps t.held := by
  have hbytes := Channel.bytes_eq hh
  have h0 : c.buf 0 = n := Channel.buf_eq hh (Nat.zero_lt_succ _)
  have hlen : (c.buf 0).toNat + 1 = r.length + 1 := by rw [h0, hn]
  simp only [List.length_cons, List.length_append] at hbytes
  have hd : (c.dropFirst (r.length + 1)).held = ss.flatten ++ t.bytes := by
    rw [Channel.held_dropFirst, hh, List.drop_succ_cons, List.drop_left]
  rw [parseStages_of_ptr hs hpes, hlen, if_neg (by omega)]
  exact parseData_sections (c := { c.dropFirst (r.length + 1) with type := .sec, stage := .data })
    hl rfl rfl hp hd hss hgo hf hroom

theorem parseStages_pes (hl : Listening i pid q p.filters) (hs : c.stage = .header)
    (hpes : c.buf 0 = 0 ∧ c.buf 1 = 0 ∧ c.buf 2 = 1) {p' : TSParser}
    {c' : Channel} (h : parseStages p c = some (p', c')) : Listening i pid q p'.filters ∧ c'.Lost := by
  rw [parseStages_of_pes hs hpes] at h
  exact parseStages_pts (c := { c with type := .pes, stage := .pts }) hl rfl rfl h

/-! ## Payloads -/

/-- The channel with a payload behind what it has. -/
def Channel.append (c : Channel) (data : List Byte) : Channel :=
  { c with buf := c.buf.copy c.bytes data, bytes := c.bytes + data.length }

theorem Channel.held_append (c : Channel) (data : List Byte) :
    (c.append data).held = c.held ++ data :=
  Mem.read_copy_append c.buf c.bytes data

/-- A payload that starts nothing. -/
theorem parsePayload_cont {data : List Byte} (hs : c.stage ≠ .start)
    (hfit : c.bytes + data.length ≤ filterBufSize) :
    parsePayload p c data false =
      if (c.append data).bytes < 3 then some (p, c.append data)
      else parseStages p (c.append data) := by
  unfold parsePayload
  rw [if_neg (by simp [hs])]
  simp only [Bool.false_eq_true, if_false]
  rw [if_neg (by omega)]
  rfl

/-- The channel at the start of a payload unit. -/
def Channel.restart (c : Channel) : Channel := { c with bytes := 0, stage := .header }

theorem parsePayload_start {data : List Byte} (hfit : data.length ≤ filterBufSize) :
    parsePayload p c data true =
      if (c.restart.append data).bytes < 3 then some (p, c.restart.append data)
      else parseStages p (c.restart.append data) := by
  unfold parsePayload
  rw [if_neg (by simp)]
  simp only [if_true]
  rw [if_neg (by simpa using hfit)]
  rfl

theorem Channel.held_restart (c : Channel) (data : List Byte) :
    (c.restart.append data).held = data := by
  rw [Channel.held_append]
  rfl

/-- More of a section in progress. -/
theorem parsePayload_data {data : List Byte} (hl : Listening i pid q p.filters)
    (hs : c.stage = .data) (ht : c.type = .sec) (hp : c.pid = pid)
    (hh : c.held ++ data = ss.flatten ++ t.bytes)
    (hfit : c.bytes + data.length ≤ filterBufSize) (hss : ∀ s ∈ ss, IsSection s) (hgo : GoesOn t)
    (hf : t.Follows ss) (hroom : (q ++ ss).flatten.length ≤ 4096) :
    ∃ p' c', parsePayload p c data false = some (p', c') ∧ Listening i pid (q ++ ss) p'.filters ∧
      c'.Keeps t.held := by
  have happ : (c.append data).held = ss.flatten ++ t.bytes := (c.held_append data).trans hh
  rw [parsePayload_cont (by simp [hs]) hfit]
  split
  · have hlt : (ss.flatten ++ t.bytes).length < 3 := by
      rw [← happ, Channel.length_held]
      assumption
    rw [List.length_append] at hlt
    obtain rfl := flatten_short hss (by omega)
    refine ⟨p, _, rfl, by simpa using hl, ?_⟩
    cases t with
    | stuffing k => exact .inl rfl
    | split b => exact .inr ⟨hs, ht, happ⟩
  · rw [parseStages_of_data (c := c.append data) hs]
    exact parseData_sections hl hs ht hp happ hss hgo hf hroom

/-- PES data goes on. -/
theorem parsePayload_lost {data : List Byte} (hl : Listening i pid q p.filters) (hc : c.Lost)
    (hlen : data.length ≤ 184) {p' : TSParser} {c' : Channel}
    (h : parsePayload p c data false = some (p', c')) : Listening i pid q p'.filters ∧ c'.Lost := by
  obtain ⟨ht, hst⟩ := hc
  have hfit : c.bytes + data.length ≤ filterBufSize := by
    unfold filterBufSize
    omega
  rcases hst with ⟨hs, hb⟩ | ⟨hs, hb⟩
  · rw [parsePayload_cont (by simp [hs]) hfit] at h
    split at h
    · cases h
      exact ⟨hl, ht, .inl ⟨hs, by omega⟩⟩
    · exact parseStages_pts (c := c.append data) hl hs ht h
  · rw [parsePayload_cont (by simp [hs]) hfit] at h
    split at h
    · cases h
      exact ⟨hl, ht, .inr ⟨hs, ‹_›⟩⟩
    · obtain ⟨p2, c2, h2, hlv, hlost⟩ := parseData_pes (c := c.append data) hl hs ht
      rw [parseStages_of_data (c := c.append data) hs, h2] at h
      cases h
      exact ⟨hlv, hlost⟩

end

/-! ## What a payload leaves alone -/

/-- The parser's buffer and channels, and the PID of the channel. -/
structure Frame (p p' : TSParser) (c c' : Channel) : Prop where
  channels : p'.channels = p.channels
  buf : p'.buf = p.buf
  parsed : p'.parsed = p.parsed
  packetLen : p'.packetLen = p.packetLen
  pid : c'.pid = c.pid

section
variable {p p' : TSParser} {c c' : Channel}

theorem retry_frame {fuel : Nat} (h : retry fuel p c = some (p', c')) : Frame p p' c c' := by
  induction fuel generalizing p c with
  | zero => cases h
  | succ fuel ih =>
    unfold retry at h
    split at h
    · split at h
      · cases h
        exact ⟨rfl, rfl, rfl, rfl, rfl⟩
      · split at h
        · cases h
          exact ⟨rfl, rfl, rfl, rfl, rfl⟩
        · split at h
          · cases h
            exact ⟨rfl, rfl, rfl, rfl, rfl⟩
          · split at h
            · cases h
              exact ⟨rfl, rfl, rfl, rfl, rfl⟩
            · dsimp only at h
              split at h
              · cases h
                exact ⟨rfl, rfl, rfl, rfl, rfl⟩
              · split at h
                · cases h
                  exact ⟨rfl, rfl, rfl, rfl, rfl⟩
                · split at h
                  · obtain ⟨h1, h2, h3, h4, h5⟩ := ih h
                    exact ⟨h1, h2, h3, h4, h5⟩
                  · cases h
                    exact ⟨rfl, rfl, rfl, rfl, rfl⟩
    · split at h
      · cases h
        exact ⟨rfl, rfl, rfl, rfl, rfl⟩
      · cases h
        exact ⟨rfl, rfl, rfl, rfl, rfl⟩

theorem parseData_frame (h : parseData p c = some (p', c')) : Frame p p' c c' := by
  unfold parseData at h
  split at h
  · cases h
    exact ⟨rfl, rfl, rfl, rfl, rfl⟩
  · exact retry_frame h

theorem parseStages_frame (h : parseStages p c = some (p', c')) : Frame p p' c c' := by
  by_cases hpts : c.stage = .pts
  · rw [parseStages_of_pts hpts] at h
    split at h
    · cases h
      exact ⟨rfl, rfl, rfl, rfl, rfl⟩
    · obtain ⟨⟨p1, c1⟩, h1, h⟩ := Option.bind_eq_some_iff.mp h
      obtain ⟨rate, pts, offset, rfl, rfl⟩ := takePts_eq h1
      obtain ⟨h1, h2, h3, h4, h5⟩ := parseData_frame h
      exact ⟨h1, h2, h3, h4, h5⟩
  · by_cases hhead : c.stage = .header
    · by_cases hpes : c.buf 0 = 0 ∧ c.buf 1 = 0 ∧ c.buf 2 = 1
      · rw [parseStages_of_pes hhead hpes, parseStages_of_pts rfl] at h
        split at h
        · cases h
          exact ⟨rfl, rfl, rfl, rfl, rfl⟩
        · obtain ⟨⟨p1, c1⟩, h1, h⟩ := Option.bind_eq_some_iff.mp h
          obtain ⟨rate, pts, offset, rfl, rfl⟩ := takePts_eq h1
          obtain ⟨h1, h2, h3, h4, h5⟩ := parseData_frame h
          exact ⟨h1, h2, h3, h4, h5⟩
      · rw [parseStages_of_ptr hhead hpes] at h
        split at h
        · cases h
          exact ⟨rfl, rfl, rfl, rfl, rfl⟩
        · obtain ⟨h1, h2, h3, h4, h5⟩ := parseData_frame h
          exact ⟨h1, h2, h3, h4, h5⟩
    · unfold parseStages at h
      simp only [hhead, if_false, hpts] at h
      split at h
      · split at h
        · cases h
          exact ⟨rfl, rfl, rfl, rfl, rfl⟩
        · obtain ⟨h1, h2, h3, h4, h5⟩ := parseData_frame h
          exact ⟨h1, h2, h3, h4, h5⟩
      · exact parseData_frame h

theorem parsePayload_frame {data : List Byte} {start : Bool}
    (h : parsePayload p c data start = some (p', c')) : Frame p p' c c' := by
  cases start with
  | true =>
    by_cases hfit : data.length ≤ filterBufSize
    · rw [parsePayload_start hfit] at h
      split at h
      · cases h
        exact ⟨rfl, rfl, rfl, rfl, rfl⟩
      · obtain ⟨h1, h2, h3, h4, h5⟩ := parseStages_frame h
        exact ⟨h1, h2, h3, h4, h5⟩
    · simp [parsePayload, hfit] at h
  | false =>
    by_cases hs : c.stage = .start
    · simp only [parsePayload, hs, Bool.not_false, and_self, if_true, Option.some.injEq,
        Prod.mk.injEq] at h
      obtain ⟨rfl, rfl⟩ := h
      exact ⟨rfl, rfl, rfl, rfl, rfl⟩
    · by_cases hfit : c.bytes + data.length ≤ filterBufSize
      · rw [parsePayload_cont hs hfit] at h
        split at h
        · cases h
          exact ⟨rfl, rfl, rfl, rfl, rfl⟩
        · obtain ⟨h1, h2, h3, h4, h5⟩ := parseStages_frame h
          exact ⟨h1, h2, h3, h4, h5⟩
      · simp [parsePayload, hs, hfit] at h

end

end VendorAmlogic.Demux.Emu
