import VendorAmlogic.Pes.Decode

/-!
# The reach of the PES parser

Where `AM_PES_Decode` reads, and which part of the buffer it gives to the
callback, as positions in the buffer. A round of its loop is recorded with
the header bytes it looks at; a byte behind the data counts as zero here.
-/

namespace VendorAmlogic.Pes

open VendorAmlogic.Lib

/-! ## The source -/

/-- The bytes that `calc_mpeg1_pes_offset` looks at. -/
def mpeg1Reads (data : List Byte) (dataLen : Nat) : List Nat :=
  let run := (((data.take dataLen).drop 6).takeWhile (· = 0xFF)).length
  let posn := 6 + run
  if posn < dataLen then
    List.range' 6 (run + 1) ++ [if data.getD posn 0 &&& 0xC0 = 0x40 then posn + 2 else posn]
  else List.range' 6 run

/-- What a round does from a start code on: the bytes it looks at, and `dpos`, `dlen` and `plen` of
the packet unless it waits for more. All of them count from the start code. -/
def lookAt (payloadOnly : Bool) (p : List Byte) : List Nat × Option (Int × Int × Nat) :=
  if p.length < 6 then ([], none)
  else
    let plen := packetLength p
    let invalid := plen = 0xffff ∨ plen = 0
    if p.length < plen + 6 ∧ ¬ invalid then ([4, 5], none)
    else if payloadOnly then
      if invalid then
        ([4, 5, 8], (calcInvalidPesOffset p).map fun r => (r.2.1, r.2.2, r.1))
      else if p.getD 6 0 &&& 0xC0 = 0x80 then
        let hlen := 6 + 3 + (p.getD 8 0).toNat
        ([4, 5, 6, 8], some (hlen, plen + 6 - hlen, plen))
      else
        let hlen := calcMpeg1PesOffset p plen
        ([4, 5, 6] ++ mpeg1Reads p plen, some (hlen, plen + 6 - hlen, plen))
    else ([4, 5], some (0, plen + 6, plen))

/-- A round: where its start code is, and what it does. -/
structure Look where
  pos : Nat
  reads : List Nat
  packet : Option (Int × Int × Nat)
  deriving DecidableEq

/-- The loop of `AM_PES_Decode` from `pos` on, and the `pos` it ends with. A round goes on by at
least six bytes. -/
def loop (payloadOnly : Bool) (buf : List Byte) : Nat → Nat → List Look × Nat
  | 0, pos => ([], pos)
  | fuel + 1, pos =>
    if buf.length ≤ pos then ([], pos)
    else
      match startCode (buf.drop pos) with
      | none => ([], pos)
      | some i =>
        let r := lookAt payloadOnly (buf.drop (pos + i))
        match r.2 with
        | none => ([⟨pos + i, r.1, none⟩], pos + i)
        | some (dpos, dlen, plen) =>
          let rs := loop payloadOnly buf fuel (pos + i + plen + 6)
          (⟨pos + i, r.1, some (dpos, dlen, plen)⟩ :: rs.1, rs.2)

/-- A call of `AM_PES_Decode`: `parser->len` with the chunk, the rounds, and `left`. -/
structure DecodeCall where
  buf : List Byte
  looks : List Look
  left : Int
  deriving DecidableEq

def decodeCall (payloadOnly : Bool) (buf : List Byte) : DecodeCall :=
  let r := loop payloadOnly buf buf.length 0
  ⟨buf, r.1, buf.length - r.2⟩

/-- The calls with the chunks of a stream, up to one that leaves less than nothing. -/
def decodeCalls (payloadOnly : Bool) : List Byte → List (List Byte) → List DecodeCall
  | _, [] => []
  | buf, chunk :: chunks =>
    if chunk = [] then decodeCalls payloadOnly buf chunks
    else
      let c := decodeCall payloadOnly (buf ++ chunk)
      c :: if c.left < 0 then [] else
        decodeCalls payloadOnly ((buf ++ chunk).drop ((buf ++ chunk).length - c.left.toNat)) chunks

/-! ## The reach -/

/-- A round stays inside of `len` bytes. -/
structure Look.Inside (len : Nat) (l : Look) : Prop where
  reads : ∀ i ∈ l.reads, l.pos + i < len
  packet : ∀ dpos dlen plen, l.packet = some (dpos, dlen, plen) →
    0 ≤ dlen ∧ l.pos + dpos + dlen ≤ len

/-- A call stays inside of the buffer, and leaves no less than nothing. -/
structure DecodeCall.Inside (c : DecodeCall) : Prop where
  looks : ∀ l ∈ c.looks, l.Inside c.buf.length
  left : 0 ≤ c.left

/-- The packets that a round can take without leaving the buffer. -/
def SafePacket (payloadOnly : Bool) (p : List Byte) : Prop :=
  6 ≤ p.length →
    if payloadOnly then
      if packetLength p = 0xffff ∨ packetLength p = 0 then 9 ≤ p.length
      else packetLength p + 6 ≤ p.length →
        if p.getD 6 0 &&& 0xC0 = 0x80 then (p.getD 8 0).toNat + 3 ≤ packetLength p
        else calcMpeg1PesOffset p (packetLength p) ≤ packetLength p + 6
    else packetLength p = 0xffff → 0xffff + 6 ≤ p.length

/-- Every packet that the rounds of a call come to is safe. -/
def DecodeCall.Safe (payloadOnly : Bool) (c : DecodeCall) : Prop :=
  ∀ l ∈ c.looks, SafePacket payloadOnly (c.buf.drop l.pos)

/-! ## A round -/

theorem mpeg1Reads_lt {p : List Byte} {n : Nat} (h : n + 6 ≤ p.length) :
    ∀ i ∈ mpeg1Reads p n, i < p.length := by
  have hrun : (((p.take n).drop 6).takeWhile (· = 0xFF)).length ≤ n - 6 := by
    refine ((List.takeWhile_sublist _).length_le).trans ?_
    rw [List.length_drop, List.length_take]
    omega
  intro i hi
  unfold mpeg1Reads at hi
  dsimp only at hi
  split at hi
  · rcases List.mem_append.1 hi with hi | hi
    · have := List.mem_range'_1.1 hi
      omega
    · rw [List.mem_singleton] at hi
      split at hi <;> omega
  · have := List.mem_range'_1.1 hi
    omega

theorem calcInvalidPesOffset_bound {p : List Byte} {r : Nat × Nat × Nat}
    (h : calcInvalidPesOffset p = some r) : r.2.1 + r.2.2 ≤ r.1 + 6 ∧ r.1 + 6 ≤ p.length ∧ 9 ≤ p.length := by
  have hle := (calcInvalidPesOffset_append h []).2
  unfold calcInvalidPesOffset at h
  dsimp only at h
  cases hs : startCode (p.drop 6) with
  | none => rw [hs] at h; cases h
  | some i =>
    have := startCode_bound hs
    rw [List.length_drop] at this
    omega

/-- The ways a round can go, with its record and whether the packet is safe. -/
inductive LookCase (payloadOnly : Bool) (p : List Byte) :
    List Nat → Option (Int × Int × Nat) → Prop → Prop
  | short (h : p.length < 6) : LookCase payloadOnly p [] none True
  | waits (h : 6 ≤ p.length) : LookCase payloadOnly p [4, 5] none True
  | searched (h : 6 ≤ p.length) (hnone : calcInvalidPesOffset p = none) :
      LookCase payloadOnly p [4, 5, 8] none (9 ≤ p.length)
  | unbounded {plen dpos dlen : Nat} (h : 9 ≤ p.length)
      (hle : dpos + dlen ≤ plen + 6 ∧ plen + 6 ≤ p.length) :
      LookCase payloadOnly p [4, 5, 8] (some (dpos, dlen, plen)) (9 ≤ p.length)
  | mpeg2 {plen b : Nat} (h : plen + 6 ≤ p.length) (hpos : 0 < plen) :
      LookCase payloadOnly p [4, 5, 6, 8]
        (some ((6 + 3 + b : Nat), (plen : Int) + 6 - (6 + 3 + b : Nat), plen)) (b + 3 ≤ plen)
  | mpeg1 {plen hlen : Nat} {reads : List Nat} (h : plen + 6 ≤ p.length) (hpos : 0 < plen)
      (hreads : ∀ i ∈ reads, i < p.length) :
      LookCase payloadOnly p ([4, 5, 6] ++ reads) (some (hlen, (plen : Int) + 6 - hlen, plen))
        (hlen ≤ plen + 6)
  | whole {plen : Nat} (h6 : 6 ≤ p.length)
      (h : plen + 6 ≤ p.length ∨ plen = 0xffff) :
      LookCase payloadOnly p [4, 5] (some (0, (plen : Int) + 6, plen))
        (plen = 0xffff → 0xffff + 6 ≤ p.length)

theorem lookCase (payloadOnly : Bool) (p : List Byte) :
    LookCase payloadOnly p (lookAt payloadOnly p).1 (lookAt payloadOnly p).2
      (SafePacket payloadOnly p) := by
  unfold lookAt
  dsimp only
  by_cases h6 : p.length < 6
  · rw [if_pos h6]
    have hsafe : SafePacket payloadOnly p = True := eq_true fun h => absurd h (by omega)
    rw [hsafe]
    exact .short h6
  rw [if_neg h6]
  have h6' : 6 ≤ p.length := by omega
  by_cases hwait : p.length < packetLength p + 6 ∧ ¬ (packetLength p = 0xffff ∨ packetLength p = 0)
  · rw [if_pos hwait]
    have hsafe : SafePacket payloadOnly p = True := by
      refine eq_true fun _ => ?_
      cases payloadOnly with
      | true =>
        rw [if_pos rfl, if_neg hwait.2]
        exact fun h => absurd h (by omega)
      | false =>
        rw [if_neg (by decide)]
        exact fun h => absurd (Or.inl h) hwait.2
    rw [hsafe]
    exact .waits h6'
  rw [if_neg hwait]
  cases payloadOnly with
  | false =>
    rw [if_neg (by decide)]
    have hsafe : SafePacket false p = (packetLength p = 0xffff → 0xffff + 6 ≤ p.length) := by
      simp [SafePacket, h6']
    rw [hsafe]
    refine .whole h6' ?_
    by_cases hlen : packetLength p + 6 ≤ p.length
    · exact .inl hlen
    · right
      by_contra hne
      exact hwait ⟨by omega, by omega⟩
  | true =>
    rw [if_pos rfl]
    by_cases hinv : packetLength p = 0xffff ∨ packetLength p = 0
    · rw [if_pos hinv]
      have hsafe : SafePacket true p = (9 ≤ p.length) := by simp [SafePacket, h6', hinv]
      rw [hsafe]
      cases hoff : calcInvalidPesOffset p with
      | none => exact .searched h6' hoff
      | some r =>
        obtain ⟨h1, h2, h3⟩ := calcInvalidPesOffset_bound hoff
        exact .unbounded h3 ⟨h1, h2⟩
    · rw [if_neg hinv]
      have hlen : packetLength p + 6 ≤ p.length := by
        by_contra hno
        exact hwait ⟨by omega, hinv⟩
      have hpos : 0 < packetLength p := Nat.pos_of_ne_zero fun h0 => hinv (.inr h0)
      by_cases hbits : p.getD 6 0 &&& 0xC0 = 0x80
      · have hsafe : SafePacket true p = ((p.getD 8 0).toNat + 3 ≤ packetLength p) := by
          unfold SafePacket
          rw [if_pos rfl, if_neg hinv, if_pos hbits]
          exact propext ⟨fun h => h h6' hlen, fun h _ _ => h⟩
        rw [if_pos hbits, hsafe]
        exact .mpeg2 hlen hpos
      · have hsafe : SafePacket true p =
            (calcMpeg1PesOffset p (packetLength p) ≤ packetLength p + 6) := by
          unfold SafePacket
          rw [if_pos rfl, if_neg hinv, if_neg hbits]
          exact propext ⟨fun h => h h6' hlen, fun h _ _ => h⟩
        rw [if_neg hbits, hsafe]
        exact .mpeg1 hlen hpos (mpeg1Reads_lt hlen)

theorem inside_mk {len pos : Nat} {reads : List Nat} {packet : Option (Int × Int × Nat)} :
    Look.Inside len ⟨pos, reads, packet⟩ ↔ (∀ i ∈ reads, pos + i < len) ∧
      ∀ dpos dlen plen, packet = some (dpos, dlen, plen) → 0 ≤ dlen ∧ pos + dpos + dlen ≤ len :=
  ⟨fun h => ⟨h.reads, h.packet⟩, fun h => ⟨h.1, h.2⟩⟩

/-- A round stays inside exactly if its packet is safe. -/
theorem LookCase.inside_iff {payloadOnly : Bool} {p : List Byte} {reads : List Nat}
    {packet : Option (Int × Int × Nat)} {safe : Prop} (h : LookCase payloadOnly p reads packet safe)
    (pos : Nat) : Look.Inside (pos + p.length) ⟨pos, reads, packet⟩ ↔ safe := by
  rw [inside_mk]
  cases h with
  | short h => exact iff_of_true ⟨by simp, by simp⟩ trivial
  | waits h => exact iff_of_true ⟨by simp; omega, by simp⟩ trivial
  | searched h hnone =>
    refine ⟨fun hi => ?_, fun h9 => ⟨by simp; omega, by simp⟩⟩
    have := hi.1 8 (by simp)
    omega
  | unbounded h hle =>
    refine iff_of_true ⟨by simp; omega, fun a b c heq => ?_⟩ h
    cases heq
    omega
  | @mpeg2 plen b h hpos =>
    constructor
    · intro hi
      have := (hi.2 _ _ _ rfl).1
      omega
    · intro hb
      refine ⟨by simp; omega, fun a c d heq => ?_⟩
      cases heq
      omega
  | @mpeg1 plen hlen reads h hpos hreads =>
    constructor
    · intro hi
      have := (hi.2 _ _ _ rfl).1
      omega
    · intro hb
      refine ⟨fun i hi => ?_, fun a c d heq => ?_⟩
      · rcases List.mem_append.1 hi with hi | hi
        · simp at hi
          omega
        · have := hreads i hi
          omega
      · cases heq
        omega
  | @whole plen h6 h =>
    constructor
    · intro hi hp
      have := (hi.2 _ _ _ rfl).2
      omega
    · intro hb
      refine ⟨by simp; omega, fun a c d heq => ?_⟩
      cases heq
      rcases h with h | h
      · omega
      · have := hb h
        omega

/-- A safe packet ends inside of the data. -/
theorem LookCase.end_le {payloadOnly : Bool} {p : List Byte} {reads : List Nat} {dpos dlen : Int}
    {plen : Nat} {safe : Prop} (h : LookCase payloadOnly p reads (some (dpos, dlen, plen)) safe)
    (hs : safe) : plen + 6 ≤ p.length := by
  cases h with
  | unbounded h hle => exact hle.2
  | mpeg2 h _ => exact h
  | mpeg1 h _ _ => exact h
  | whole h6 h =>
    rcases h with h | h
    · exact h
    · have := hs h
      omega

/-! ## A call -/

/-- Every round of a call is as `lookCase` says, at its place. -/
theorem loop_looks {payloadOnly : Bool} {buf : List Byte} {fuel pos : Nat} :
    ∀ l ∈ (loop payloadOnly buf fuel pos).1, l.pos ≤ buf.length ∧
      LookCase payloadOnly (buf.drop l.pos) l.reads l.packet
        (SafePacket payloadOnly (buf.drop l.pos)) := by
  induction fuel generalizing pos with
  | zero => simp [loop]
  | succ fuel ih =>
    rw [loop]
    split
    · simp
    split
    · simp
    · rename_i hlt i hi
      have hbound := startCode_bound hi
      rw [List.length_drop] at hbound
      have hcase := lookCase payloadOnly (buf.drop (pos + i))
      dsimp only
      split
      · rename_i hnone
        intro l hl
        obtain rfl := List.mem_singleton.1 hl
        rw [hnone] at hcase
        exact ⟨by dsimp only; omega, hcase⟩
      · rename_i dpos dlen plen hsome
        intro l hl
        rcases List.mem_cons.1 hl with rfl | hl
        · rw [hsome] at hcase
          exact ⟨by dsimp only; omega, hcase⟩
        · exact ih l hl

/-- Safe packets do not take the loop beyond the data. -/
theorem loop_end_le {payloadOnly : Bool} {buf : List Byte} {fuel pos : Nat} (hpos : pos ≤ buf.length)
    (h : ∀ l ∈ (loop payloadOnly buf fuel pos).1, SafePacket payloadOnly (buf.drop l.pos)) :
    (loop payloadOnly buf fuel pos).2 ≤ buf.length := by
  induction fuel generalizing pos with
  | zero => exact hpos
  | succ fuel ih =>
    rw [loop] at h ⊢
    split
    · exact hpos
    · rename_i hlt
      rw [if_neg hlt] at h
      cases hs : startCode (buf.drop pos) with
      | none => exact hpos
      | some i =>
        have hbound := startCode_bound hs
        rw [List.length_drop] at hbound
        have hcase := lookCase payloadOnly (buf.drop (pos + i))
        rw [hs] at h
        dsimp only at h ⊢
        cases hr : (lookAt payloadOnly (buf.drop (pos + i))).2 with
        | none => dsimp only; omega
        | some r =>
          obtain ⟨dpos, dlen, plen⟩ := r
          rw [hr] at h hcase
          dsimp only at h ⊢
          have hend := hcase.end_le (h _ List.mem_cons_self)
          rw [List.length_drop] at hend
          exact ih (by omega) fun l hl => h l (List.mem_cons_of_mem _ hl)

/-! ## The callbacks -/

/-- The part of the buffer that a round gives to the callback. -/
def Look.cb (buf : List Byte) (l : Look) : Option PacketCb :=
  l.packet.map fun r => ⟨(buf.drop (l.pos + r.1.toNat)).take r.2.1.toNat, r.2.1⟩

theorem payloadCb_eq {p : List Byte} {plen hlen : Nat} :
    payloadCb p plen hlen = ⟨(p.drop hlen).take ((plen : Int) + 6 - hlen).toNat, (plen : Int) + 6 - hlen⟩ := by
  have hnat : ((plen : Int) + 6 - hlen).toNat = plen + 6 - hlen := by omega
  rw [payloadCb, List.drop_take, hnat]

/-- A round on a safe packet is the one that `decodePacket` says. -/
theorem decodePacket_of_safe {payloadOnly : Bool} {p : List Byte} (h : SafePacket payloadOnly p) :
    decodePacket payloadOnly p =
      match (lookAt payloadOnly p).2 with
      | none => .more p
      | some (dpos, dlen, plen) =>
        .item ⟨(p.drop dpos.toNat).take dlen.toNat, dlen⟩ (p.drop (plen + 6)) := by
  unfold lookAt
  dsimp only
  by_cases h6 : p.length < 6
  · rw [decodePacket, if_pos h6, if_pos h6]
  rw [if_neg h6]
  by_cases hwait : p.length < packetLength p + 6 ∧ ¬ (packetLength p = 0xffff ∨ packetLength p = 0)
  · rw [decodePacket, if_neg h6, if_pos hwait, if_pos hwait]
  rw [if_neg hwait]
  have hsafe := h (by omega)
  cases payloadOnly with
  | false =>
    rw [if_neg (by decide)] at hsafe
    have hlen : packetLength p + 6 ≤ p.length := by
      by_contra hno
      by_cases hffff : packetLength p = 0xffff
      · have := hsafe hffff
        omega
      · exact hwait ⟨by omega, by omega⟩
    have hnat : ((packetLength p : Int) + 6).toNat = packetLength p + 6 := by omega
    rw [if_neg (by decide), decodePacket_whole hlen]
    dsimp only
    rw [hnat, Int.toNat_zero, List.drop_zero]
    rfl
  | true =>
    rw [if_pos rfl] at hsafe ⊢
    by_cases hinv : packetLength p = 0xffff ∨ packetLength p = 0
    · rw [if_pos hinv]
      cases hoff : calcInvalidPesOffset p with
      | none =>
        rw [decodePacket, if_neg h6]
        dsimp only
        rw [if_neg hwait, if_pos rfl, if_pos hinv, hoff]
        rfl
      | some r => exact decodePacket_unbounded (by omega) hinv hoff
    · rw [if_neg hinv] at hsafe ⊢
      have hlen : packetLength p + 6 ≤ p.length := by
        by_contra hno
        exact hwait ⟨by omega, hinv⟩
      have hsafe := hsafe hlen
      rw [decodePacket_bounded hinv hlen]
      by_cases hbits : p.getD 6 0 &&& 0xC0 = 0x80
      · rw [if_pos hbits] at hsafe ⊢
        have h8 : 8 < p.length := by omega
        rw [if_pos hbits, List.getElem?_eq_getElem h8]
        have hget : p.getD 8 0 = p[8] := by simp [h8]
        dsimp only
        rw [payloadCb_eq, hget, Int.toNat_natCast]
      · rw [if_neg hbits] at hsafe ⊢
        rw [if_neg hbits]
        dsimp only
        rw [payloadCb_eq, Int.toNat_natCast]

/-- The rounds of a call are the packets that the parser takes. -/
theorem loop_drain {payloadOnly : Bool} {buf : List Byte} {fuel pos : Nat}
    (hfuel : buf.length ≤ pos + fuel)
    (h : ∀ l ∈ (loop payloadOnly buf fuel pos).1, SafePacket payloadOnly (buf.drop l.pos)) :
    drain (decodeStep payloadOnly) (fuel + 1) (buf.drop pos) =
      some ((loop payloadOnly buf fuel pos).1.filterMap (Look.cb buf),
        buf.drop (loop payloadOnly buf fuel pos).2) := by
  induction fuel generalizing pos with
  | zero =>
    have hnil : buf.drop pos = [] := List.drop_eq_nil_of_le (by omega)
    rw [drain, loop, hnil]
    rfl
  | succ fuel ih =>
    rw [loop] at h ⊢
    by_cases hlt : buf.length ≤ pos
    · have hnil : buf.drop pos = [] := List.drop_eq_nil_of_le hlt
      rw [if_pos hlt, drain, hnil]
      rfl
    · rw [if_neg hlt] at h ⊢
      rw [drain, decodeStep]
      cases hs : startCode (buf.drop pos) with
      | none => rfl
      | some i =>
        rw [hs] at h
        dsimp only at h ⊢
        rw [List.drop_drop]
        cases hr : (lookAt payloadOnly (buf.drop (pos + i))).2 with
        | none =>
          rw [hr] at h
          have hp := decodePacket_of_safe (h _ (List.mem_singleton.2 rfl))
          dsimp only at hp
          rw [hp, hr]
          rfl
        | some r =>
          obtain ⟨dpos, dlen, plen⟩ := r
          rw [hr] at h
          have hp := decodePacket_of_safe (h _ List.mem_cons_self)
          dsimp only at hp h
          have hfuel' : buf.length ≤ pos + i + plen + 6 + fuel := by omega
          have hrest := ih hfuel' fun l hl => h l (List.mem_cons_of_mem _ hl)
          have hskip : (buf.drop (pos + i)).drop (plen + 6) = buf.drop (pos + i + plen + 6) := by
            rw [List.drop_drop, ← Nat.add_assoc]
          rw [hp, hr]
          dsimp only
          rw [hskip, hrest, List.drop_drop]
          simp [Look.cb]

/-- A safe call is the call of `AM_PES_Decode`: its callbacks, and the bytes it leaves. -/
theorem amPesDecode_of_safe {payloadOnly : Bool} {buf chunk : List Byte} (hchunk : chunk ≠ [])
    (h : (decodeCall payloadOnly (buf ++ chunk)).Safe payloadOnly) :
    amPesDecode payloadOnly buf chunk =
      some ((decodeCall payloadOnly (buf ++ chunk)).looks.filterMap (Look.cb (buf ++ chunk)),
        (buf ++ chunk).drop
          ((buf ++ chunk).length - (decodeCall payloadOnly (buf ++ chunk)).left.toNat)) := by
  have hfuel : (buf ++ chunk).length ≤ 0 + (buf ++ chunk).length := Nat.le_add_left ..
  have hdrain := loop_drain hfuel h
  have hend := loop_end_le (Nat.zero_le _) h
  have hleft : (buf ++ chunk).length - (decodeCall payloadOnly (buf ++ chunk)).left.toNat =
      (loop payloadOnly (buf ++ chunk) (buf ++ chunk).length 0).2 := by
    simp only [decodeCall] at hend ⊢
    omega
  rw [amPesDecode, if_neg hchunk, hleft]
  exact hdrain

/-- A call stays inside of the buffer exactly if the packets it comes to are safe. -/
theorem decodeCall_inside_iff (payloadOnly : Bool) (buf : List Byte) :
    (decodeCall payloadOnly buf).Inside ↔ (decodeCall payloadOnly buf).Safe payloadOnly := by
  have hlook : ∀ l ∈ (decodeCall payloadOnly buf).looks,
      l.Inside buf.length ↔ SafePacket payloadOnly (buf.drop l.pos) := by
    intro l hl
    obtain ⟨hle, hcase⟩ := loop_looks l hl
    have hiff := hcase.inside_iff l.pos
    rwa [List.length_drop, Nat.add_sub_cancel' hle] at hiff
  constructor
  · exact fun h l hl => (hlook l hl).1 (h.looks l hl)
  · intro h
    refine ⟨fun l hl => (hlook l hl).2 (h l hl), ?_⟩
    have hend : (loop payloadOnly buf buf.length 0).2 ≤ buf.length := loop_end_le (Nat.zero_le _) h
    simp only [decodeCall]
    omega

/-- Over every stream, in every chunking: the parser stays inside of its buffer exactly if every
packet it comes to is safe. -/
theorem decodeCalls_inside_iff (payloadOnly : Bool) (chunks : List (List Byte)) :
    (∀ c ∈ decodeCalls payloadOnly [] chunks, c.Inside) ↔
      ∀ c ∈ decodeCalls payloadOnly [] chunks, c.Safe payloadOnly := by
  suffices h : ∀ buf, ∀ c ∈ decodeCalls payloadOnly buf chunks,
      c.Inside ↔ c.Safe payloadOnly from forall₂_congr (h [])
  induction chunks with
  | nil => simp [decodeCalls]
  | cons chunk chunks ih =>
    intro buf c hc
    rw [decodeCalls] at hc
    split at hc
    · exact ih buf c hc
    · rcases List.mem_cons.1 hc with rfl | hc
      · exact decodeCall_inside_iff payloadOnly (buf ++ chunk)
      · split at hc
        · simp at hc
        · exact ih _ c hc

/-- The header of a packet of length `0xFFFF`, passed on as a whole. -/
theorem not_inside_ffff : ¬ ∀ c ∈ decodeCalls false [] [[0, 0, 1, 0xE0, 0xFF, 0xFF]], c.Inside := by
  intro h
  have hleft := (h (decodeCall false [0, 0, 1, 0xE0, 0xFF, 0xFF]) (by decide)).left
  exact absurd hleft (by decide)

end VendorAmlogic.Pes
