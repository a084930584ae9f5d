import Mathlib.Data.List.GetD
import VendorAmlogic.Lib.Bytes
import VendorAmlogic.Lib.Incremental

/-!
# PES packets

The parser of `am_adp/am_pes/am_pes.c`. `AM_PES_Decode` appends to the bytes it
has and takes packets from the first start code on; the bytes that it cannot
use yet are moved to the front of the buffer. A read behind the bytes in the
buffer whose result is used is `stuck`.
-/

namespace VendorAmlogic.Pes

open VendorAmlogic.Lib

/-! ## The source -/

/-- A call of the packet callback. The size is negative where the header is longer than the
packet. -/
structure PacketCb where
  data : List Byte
  size : Int
  deriving DecidableEq

/-- The first `00 00 01` with two bytes behind it. -/
def startCode : List Byte → Option Nat
  | [] => none
  | b :: d => if (b :: d).take 3 = [0, 0, 1] ∧ 4 < (b :: d).length then some 0 else (startCode d).map (· + 1)

/-- `calc_invalid_pes_offset`: `plen`, and `dpos` and `dlen` from the packet on. `data[8]` is
also read where it is behind the data, but not used then. -/
def calcInvalidPesOffset (data : List Byte) : Option (Nat × Nat × Nat) :=
  let pesHeadLen := (data.getD 8 0).toNat
  match startCode (data.drop 6) with
  | none => none
  | some i =>
    let posn := 6 + i
    if posn < pesHeadLen + 9 then some (posn - 6, posn, 0)
    else some (posn - 6, pesHeadLen + 9, posn - (pesHeadLen + 9))

/-- `calc_mpeg1_pes_offset`. -/
def calcMpeg1PesOffset (data : List Byte) (dataLen : Nat) : Nat :=
  let posn := 6 + (((data.take dataLen).drop 6).takeWhile (· = 0xFF)).length
  if posn < dataLen then
    let posn := if data.getD posn 0 &&& 0xC0 = 0x40 then posn + 2 else posn
    if data.getD posn 0 &&& 0xF0 = 0x20 then posn + 5
    else if data.getD posn 0 &&& 0xF0 = 0x30 then posn + 10
    else posn + 1
  else posn

/-- `PES_packet_length`. -/
def packetLength (d : List Byte) : Nat := (d.getD 4 0).toNat * 256 + (d.getD 5 0).toNat

/-- The callback for the part of a packet behind its header. -/
def payloadCb (d : List Byte) (plen hlen : Nat) : PacketCb :=
  ⟨(d.take (plen + 6)).drop hlen, plen + 6 - hlen⟩

/-- A round of the loop of `AM_PES_Decode`, from a start code on. -/
def decodePacket (payloadOnly : Bool) (d : List Byte) : Taken PacketCb Byte :=
  if d.length < 6 then .more d
  else
    let plen := packetLength d
    let invalid := plen = 0xffff ∨ plen = 0
    if d.length < plen + 6 ∧ ¬ invalid then .more d
    else if payloadOnly then
      if invalid then
        match calcInvalidPesOffset d with
        | none => .more d
        | some (plen, dpos, dlen) => .item ⟨(d.drop dpos).take dlen, dlen⟩ (d.drop (plen + 6))
      else if d.getD 6 0 &&& 0xC0 = 0x80 then
        match d[8]? with
        | none => .stuck
        | some b => .item (payloadCb d plen (6 + 3 + b.toNat)) (d.drop (plen + 6))
      else .item (payloadCb d plen (calcMpeg1PesOffset d plen)) (d.drop (plen + 6))
    else if d.length < plen + 6 then .stuck
    else .item ⟨d.take (plen + 6), (plen + 6 : Nat)⟩ (d.drop (plen + 6))

/-- A round of the loop. With no bytes left the loop ends, as it does without a start code. -/
def decodeStep (payloadOnly : Bool) (d : List Byte) : Taken PacketCb Byte :=
  match startCode d with
  | none => .more d
  | some i => decodePacket payloadOnly (d.drop i)

/-- `AM_PES_Decode`: the calls of the callback, and the bytes left in the buffer. -/
def amPesDecode (payloadOnly : Bool) (buf chunk : List Byte) : Option (List PacketCb × List Byte) :=
  if chunk = [] then some ([], buf)
  else drain (decodeStep payloadOnly) ((buf ++ chunk).length + 1) (buf ++ chunk)

/-- The chunks in order. -/
def decodeAll (payloadOnly : Bool) : List Byte → List (List Byte) → Option (List PacketCb × List Byte)
  | buf, [] => some ([], buf)
  | buf, chunk :: chunks => do
    let (cbs, buf) ← amPesDecode payloadOnly buf chunk
    let (cbs', buf) ← decodeAll payloadOnly buf chunks
    some (cbs ++ cbs', buf)

/-! ## Bytes behind the data -/

section
variable {d x : List Byte} {i : Nat}

theorem startCode_bound (h : startCode d = some i) : i + 5 ≤ d.length := by
  induction d generalizing i with
  | nil => cases h
  | cons b d ih =>
    unfold startCode at h
    split at h
    · rename_i hb
      cases h
      omega
    · obtain ⟨j, hj, rfl⟩ := Option.map_eq_some_iff.mp h
      have := ih hj
      rw [List.length_cons]
      omega

theorem startCode_append (h : startCode d = some i) (x : List Byte) :
    startCode (d ++ x) = some i := by
  induction d generalizing i with
  | nil => cases h
  | cons b d ih =>
    have htake : 4 < (b :: d).length → ((b :: d) ++ x).take 3 = (b :: d).take 3 := fun h =>
      List.take_append_of_le_length (by omega)
    have hbound := startCode_bound h
    rw [startCode] at h
    rw [List.cons_append, startCode, ← List.cons_append, htake (by omega)]
    split at h
    · rename_i hb
      rw [if_pos ⟨hb.1, by rw [List.length_append]; omega⟩]
      exact h
    · rename_i hb
      obtain ⟨j, hj, rfl⟩ := Option.map_eq_some_iff.mp h
      rw [if_neg fun h' => hb ⟨h'.1, by omega⟩, ih hj]
      rfl

theorem startCode_drop (h : startCode d = some i) : startCode (d.drop i) = some 0 := by
  induction d generalizing i with
  | nil => cases h
  | cons b d ih =>
    have h' := h
    rw [startCode] at h
    split at h
    · cases h
      exact h'
    · obtain ⟨j, hj, rfl⟩ := Option.map_eq_some_iff.mp h
      rw [List.drop_succ_cons]
      exact ih hj

theorem packetLength_append (h : 6 ≤ d.length) : packetLength (d ++ x) = packetLength d := by
  rw [packetLength, List.getD_append d x 0 4 (by omega), List.getD_append d x 0 5 (by omega),
    packetLength]

theorem calcInvalidPesOffset_append {r : Nat × Nat × Nat} (h : calcInvalidPesOffset d = some r)
    (x : List Byte) :
    calcInvalidPesOffset (d ++ x) = some r ∧ r.2.1 + r.2.2 ≤ r.1 + 6 ∧ r.1 + 6 ≤ d.length := by
  unfold calcInvalidPesOffset at h ⊢
  dsimp only at h ⊢
  cases hs : startCode (d.drop 6) with
  | none =>
    rw [hs] at h
    cases h
  | some i =>
    have hbound := startCode_bound hs
    rw [List.length_drop] at hbound
    rw [List.drop_append_of_le_length (by omega), startCode_append hs,
      List.getD_append d x 0 _ (by omega)]
    rw [hs] at h
    dsimp only at h ⊢
    refine ⟨h, ?_⟩
    split at h
    · cases h
      dsimp only
      omega
    · cases h
      dsimp only
      omega

theorem calcMpeg1PesOffset_append {n : Nat} (h : n + 6 ≤ d.length) :
    calcMpeg1PesOffset (d ++ x) n = calcMpeg1PesOffset d n := by
  unfold calcMpeg1PesOffset
  rw [List.take_append_of_le_length (by omega)]
  dsimp only
  generalize 6 + (((d.take n).drop 6).takeWhile (· = 0xFF)).length = posn
  by_cases hlt : posn < n
  · have hget : (d ++ x).getD posn 0 = d.getD posn 0 := List.getD_append d x 0 _ (by omega)
    rw [if_pos hlt, if_pos hlt, hget]
    have hle : (if d.getD posn 0 &&& 0xC0 = 0x40 then posn + 2 else posn) < d.length := by
      split <;> omega
    rw [List.getD_append d x 0 _ hle]
  · rw [if_neg hlt, if_neg hlt]

theorem payloadCb_append {plen hlen : Nat} (h : plen + 6 ≤ d.length) :
    payloadCb (d ++ x) plen hlen = payloadCb d plen hlen := by
  rw [payloadCb, List.take_append_of_le_length h, payloadCb]

end

/-! ## Chunks -/

/-- A packet that is excluded: one whose length is 1 or 2, or one of length `0xFFFF` that is
to be passed as a whole. -/
def ExcludedPacket (payloadOnly : Bool) (p : List Byte) : Prop :=
  6 ≤ p.length ∧
    if payloadOnly then (packetLength p = 1 ∨ packetLength p = 2) ∧ packetLength p + 6 ≤ p.length
    else packetLength p = 0xFFFF

/-- The first packet of the data is not excluded. -/
def Fine (payloadOnly : Bool) (d : List Byte) : Prop :=
  ∀ i, startCode d = some i → ¬ ExcludedPacket payloadOnly (d.drop i)

section
variable {payloadOnly : Bool} {d p x rest k : List Byte} {e : PacketCb} {i : Nat}

theorem drop_append_start (h : startCode d = some i) (x : List Byte) :
    (d ++ x).drop i = d.drop i ++ x :=
  List.drop_append_of_le_length (by have := startCode_bound h; omega)

theorem decodeStep_append (h : startCode d = some i) (x : List Byte) :
    decodeStep payloadOnly (d ++ x) = decodePacket payloadOnly (d.drop i ++ x) := by
  rw [decodeStep, startCode_append h, ← drop_append_start h]

theorem fine_append (h : startCode d = some i) :
    Fine payloadOnly (d ++ x) ↔ ¬ ExcludedPacket payloadOnly (d.drop i ++ x) := by
  rw [← drop_append_start h]
  refine ⟨fun hf => hf i (startCode_append h x), fun hf j hj => ?_⟩
  cases (startCode_append h x).symm.trans hj
  exact hf

/-- What a round can do from a start code on. -/
inductive Round (payloadOnly : Bool) (p : List Byte) : Taken PacketCb Byte → Prop
  | more : Round payloadOnly p (.more p)
  | unbounded {plen dpos dlen : Nat} (hmode : payloadOnly = true) (h6 : 6 ≤ p.length)
      (hinv : packetLength p = 0xffff ∨ packetLength p = 0)
      (hoff : calcInvalidPesOffset p = some (plen, dpos, dlen)) :
      Round payloadOnly p (.item ⟨(p.drop dpos).take dlen, dlen⟩ (p.drop (plen + 6)))
  | mpeg2 {b : Byte} (hmode : payloadOnly = true) (hinv : ¬ (packetLength p = 0xffff ∨ packetLength p = 0))
      (hlen : packetLength p + 6 ≤ p.length) (hbits : p.getD 6 0 &&& 0xC0 = 0x80) (h8 : p[8]? = some b) :
      Round payloadOnly p
        (.item (payloadCb p (packetLength p) (6 + 3 + b.toNat)) (p.drop (packetLength p + 6)))
  | mpeg1 (hmode : payloadOnly = true) (hinv : ¬ (packetLength p = 0xffff ∨ packetLength p = 0))
      (hlen : packetLength p + 6 ≤ p.length) (hbits : p.getD 6 0 &&& 0xC0 ≠ 0x80) :
      Round payloadOnly p (.item (payloadCb p (packetLength p) (calcMpeg1PesOffset p (packetLength p)))
        (p.drop (packetLength p + 6)))
  | whole (hmode : payloadOnly = false) (hlen : packetLength p + 6 ≤ p.length) :
      Round payloadOnly p (.item ⟨p.take (packetLength p + 6), (packetLength p + 6 : Nat)⟩
        (p.drop (packetLength p + 6)))
  | stuck (hex : ∀ x, ExcludedPacket payloadOnly (p ++ x)) : Round payloadOnly p .stuck

theorem round_decodePacket (payloadOnly : Bool) (p : List Byte) :
    Round payloadOnly p (decodePacket payloadOnly p) := by
  unfold decodePacket
  dsimp only
  by_cases h6 : p.length < 6
  · rw [if_pos h6]
    exact .more
  · rw [if_neg h6]
    by_cases hwait : p.length < packetLength p + 6 ∧ ¬ (packetLength p = 0xffff ∨ packetLength p = 0)
    · rw [if_pos hwait]
      exact .more
    · rw [if_neg hwait]
      cases hmode : payloadOnly with
      | true =>
        rw [if_pos rfl]
        by_cases hinv : packetLength p = 0xffff ∨ packetLength p = 0
        · rw [if_pos hinv]
          cases hoff : calcInvalidPesOffset p with
          | none => exact .more
          | some r =>
            obtain ⟨plen, dpos, dlen⟩ := r
            exact .unbounded rfl (by omega) hinv hoff
        · have hlen : packetLength p + 6 ≤ p.length := by omega
          rw [if_neg hinv]
          by_cases hbits : p.getD 6 0 &&& 0xC0 = 0x80
          · rw [if_pos hbits]
            cases h8 : p[8]? with
            | none =>
              have := List.getElem?_eq_none_iff.mp h8
              refine .stuck fun x => ⟨by rw [List.length_append]; omega, ?_⟩
              rw [if_pos rfl, packetLength_append (by omega), List.length_append]
              omega
            | some b => exact .mpeg2 rfl hinv hlen hbits h8
          · rw [if_neg hbits]
            exact .mpeg1 rfl hinv hlen hbits
      | false =>
        rw [if_neg (by decide)]
        by_cases hlen : p.length < packetLength p + 6
        · rw [if_pos hlen]
          refine .stuck fun x => ⟨by rw [List.length_append]; omega, ?_⟩
          rw [if_neg (by decide), packetLength_append (by omega)]
          omega
        · rw [if_neg hlen]
          exact .whole rfl (by omega)

theorem decodePacket_unbounded {plen dpos dlen : Nat} (h6 : 6 ≤ p.length)
    (hinv : packetLength p = 0xffff ∨ packetLength p = 0)
    (hoff : calcInvalidPesOffset p = some (plen, dpos, dlen)) :
    decodePacket true p = .item ⟨(p.drop dpos).take dlen, dlen⟩ (p.drop (plen + 6)) := by
  rw [decodePacket, if_neg (by omega)]
  dsimp only
  rw [if_neg (fun h => h.2 hinv), if_pos rfl, if_pos hinv, hoff]

theorem decodePacket_bounded (hinv : ¬ (packetLength p = 0xffff ∨ packetLength p = 0))
    (hlen : packetLength p + 6 ≤ p.length) :
    decodePacket true p =
      if p.getD 6 0 &&& 0xC0 = 0x80 then
        match p[8]? with
        | none => .stuck
        | some b =>
          .item (payloadCb p (packetLength p) (6 + 3 + b.toNat)) (p.drop (packetLength p + 6))
      else .item (payloadCb p (packetLength p) (calcMpeg1PesOffset p (packetLength p)))
        (p.drop (packetLength p + 6)) := by
  rw [decodePacket, if_neg (by omega)]
  dsimp only
  rw [if_neg (fun h => absurd h.1 (by omega)), if_pos rfl, if_neg hinv]

theorem decodePacket_whole (hlen : packetLength p + 6 ≤ p.length) :
    decodePacket false p = .item ⟨p.take (packetLength p + 6), (packetLength p + 6 : Nat)⟩
      (p.drop (packetLength p + 6)) := by
  rw [decodePacket, if_neg (by omega)]
  dsimp only
  rw [if_neg (fun h => absurd h.1 (by omega)), if_neg (by decide), if_neg (by omega)]

/-- **A packet that is taken** is taken as well with more bytes behind it. -/
theorem decodePacket_item (h : decodePacket payloadOnly p = .item e rest) (x : List Byte) :
    decodePacket payloadOnly (p ++ x) = .item e (rest ++ x) ∧ rest.length < p.length := by
  have hr := round_decodePacket payloadOnly p
  rw [h] at hr
  have hlen' : (p ++ x).length = p.length + x.length := List.length_append
  cases hr with
  | unbounded hmode h6 hinv hoff =>
    obtain ⟨hoff', hle, hle'⟩ := calcInvalidPesOffset_append hoff x
    dsimp only at hle hle'
    subst hmode
    rw [decodePacket_unbounded (by omega) (by rwa [packetLength_append h6]) hoff',
      List.drop_append_of_le_length (by omega), List.drop_append_of_le_length (by omega),
      List.take_append_of_le_length (by rw [List.length_drop]; omega), List.length_drop]
    exact ⟨rfl, by omega⟩
  | mpeg2 hmode hinv hlen hbits h8 =>
    have hpl := packetLength_append (d := p) (x := x) (by omega)
    have h8' := (List.getElem?_eq_some_iff.mp h8).1
    subst hmode
    rw [decodePacket_bounded (by rwa [hpl]) (by omega), List.getD_append p x 0 6 (by omega),
      if_pos hbits, List.getElem?_append_left h8', h8]
    dsimp only
    rw [hpl, payloadCb_append hlen, List.drop_append_of_le_length hlen, List.length_drop]
    exact ⟨rfl, by omega⟩
  | mpeg1 hmode hinv hlen hbits =>
    have hpl := packetLength_append (d := p) (x := x) (by omega)
    subst hmode
    rw [decodePacket_bounded (by rwa [hpl]) (by omega), List.getD_append p x 0 6 (by omega),
      if_neg hbits, hpl, calcMpeg1PesOffset_append hlen, payloadCb_append hlen,
      List.drop_append_of_le_length hlen, List.length_drop]
    exact ⟨rfl, by omega⟩
  | whole hmode hlen =>
    have hpl := packetLength_append (d := p) (x := x) (by omega)
    subst hmode
    rw [decodePacket_whole (by omega), hpl, List.take_append_of_le_length hlen,
      List.drop_append_of_le_length hlen, List.length_drop]
    exact ⟨rfl, by omega⟩

theorem decodePacket_more (h : decodePacket payloadOnly p = .more k) : k = p := by
  have hr := round_decodePacket payloadOnly p
  rw [h] at hr
  cases hr
  rfl

theorem decodePacket_stuck (h : decodePacket payloadOnly p = .stuck) (x : List Byte) :
    ExcludedPacket payloadOnly (p ++ x) := by
  have hr := round_decodePacket payloadOnly p
  rw [h] at hr
  cases hr with
  | stuck hex => exact hex x

/-- **The rounds of the loop** do not depend on the bytes behind. -/
theorem incremental_decodeStep (payloadOnly : Bool) :
    Incremental (decodeStep payloadOnly) (Fine payloadOnly) where
  shorter {d rest e} h := by
    unfold decodeStep at h
    split at h
    · cases h
    · have := (decodePacket_item h []).2
      rw [List.length_drop] at this
      omega
  item_append {d rest e x} _ h := by
    unfold decodeStep at h
    split at h
    · cases h
    · rename_i i hi
      rw [decodeStep_append hi]
      exact (decodePacket_item h x).1
  more_append {d k x} hf h := by
    unfold decodeStep at h
    split at h
    · cases h
      exact ⟨rfl, hf⟩
    · rename_i i hi
      rw [decodePacket_more h]
      have h0 := startCode_drop hi
      refine ⟨?_, ?_⟩
      · rw [decodeStep_append hi, decodeStep_append h0]
        rfl
      · rw [fine_append h0]
        exact (fine_append hi).mp hf
  kept {d k} h := by
    unfold decodeStep at h
    split at h
    · cases h
      rename_i hi
      rw [decodeStep, hi]
    · rename_i i hi
      have hk := decodePacket_more h
      subst hk
      rw [decodeStep, startCode_drop hi]
      exact h
  total {d x} hf h := by
    unfold decodeStep at h
    split at h
    · cases h
    · rename_i i hi
      exact (fine_append hi).mp hf (decodePacket_stuck h x)

theorem decodeAll_eq_feedAll {chunks : List (List Byte)} (h : ∀ c ∈ chunks, c ≠ []) (buf : List Byte) :
    decodeAll payloadOnly buf chunks = feedAll (decodeStep payloadOnly) buf chunks := by
  induction chunks generalizing buf with
  | nil => rfl
  | cons c cs ih =>
    obtain ⟨hc, hcs⟩ := List.forall_mem_cons.1 h
    rw [decodeAll, amPesDecode, if_neg hc, feedAll]
    simp only [ih hcs]

/-- **How the stream is cut into chunks does not matter**: the callback is called with the same
packets, and the same bytes are left in the buffer. -/
theorem decodeAll_chunking {payloadOnly : Bool} {chunks chunks' : List (List Byte)}
    (heq : chunks.flatten = chunks'.flatten) (hne : ∀ c ∈ chunks, c ≠ []) (hne' : ∀ c ∈ chunks', c ≠ [])
    (hfine : ∀ d, Left (decodeStep payloadOnly) chunks.flatten d → Fine payloadOnly d) :
    ∃ cbs buf, decodeAll payloadOnly [] chunks = some (cbs, buf) ∧
      decodeAll payloadOnly [] chunks' = some (cbs, buf) := by
  rw [decodeAll_eq_feedAll hne, decodeAll_eq_feedAll hne']
  obtain ⟨⟨cbs, buf⟩, h⟩ := feedAll_unique (incremental_decodeStep payloadOnly) rfl heq hfine
  exact ⟨cbs, buf, h⟩

end

/-- An MPEG-2 packet with the payload `AA`. -/
def packetAA : List Byte := [0, 0, 1, 0xE0, 0, 4, 0x80, 0, 0, 0xAA]

theorem fine_packetAA {d : List Byte} (h : Left (decodeStep true) packetAA d) : Fine true d := by
  have hstep : decodeStep true packetAA = .item ⟨[0xAA], 1⟩ [] := by decide
  have hd : d = packetAA ∨ d = [] := by
    induction h with
    | refl => exact .inl rfl
    | item _ he ih =>
      rcases ih with rfl | rfl
      · cases hstep.symm.trans he
        exact .inr rfl
      · cases he
  intro i hi
  rcases hd with rfl | rfl
  · cases (show startCode packetAA = some 0 by decide).symm.trans hi
    exact fun hex => absurd hex.2 (by decide)
  · cases hi

/-- The packet at once, and cut inside its length. -/
theorem decodeAll_packetAA : ∃ cbs buf,
    decodeAll true [] [packetAA] = some (cbs, buf) ∧
      decodeAll true [] [packetAA.take 5, packetAA.drop 5] = some (cbs, buf) :=
  decodeAll_chunking (by decide) (by decide) (by decide) fun _ h => fine_packetAA h

end VendorAmlogic.Pes
