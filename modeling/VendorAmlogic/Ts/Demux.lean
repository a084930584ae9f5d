import VendorAmlogic.Lib.Crc

/-!
# Transport streams

What a demultiplexer reads out of a transport stream: packets of 188 bytes,
the PES packets of a PID, and program tables. Nothing here depends on how the
stream was made. `none` is a stream that is not well formed.
-/

namespace VendorAmlogic.Ts

open VendorAmlogic.Lib

/-! ## Packets -/

structure TsPacket where
  pid : Nat
  unitStart : Bool
  counter : Nat
  payload : List Byte
  deriving DecidableEq

/-- What is behind the adaptation field. -/
def skipAdaptation : List Byte → Option (List Byte)
  | [] => none
  | len :: rest => if len.toNat ≤ rest.length then some (rest.drop len.toNat) else none

/-- What is behind the header, and the adaptation field if the header's last byte has one. -/
def behindAdaptation (control : Byte) (rest : List Byte) : Option (List Byte) :=
  if control &&& 0x20 ≠ 0 then skipAdaptation rest else some rest

def parsePacket : List Byte → Option TsPacket
  | sync :: b1 :: b2 :: control :: rest =>
    if sync = 0x47 ∧ rest.length = 184 then
      (behindAdaptation control rest).map fun behind => {
        pid := (b1 &&& 0x1f).toNat * 256 + b2.toNat
        unitStart := b1 &&& 0x40 ≠ 0
        counter := (control &&& 0x0f).toNat
        payload := if control &&& 0x10 ≠ 0 then behind else [] }
    else none
  | _ => none

theorem parsePacket_eq {b1 b2 control : Byte} {rest behind : List Byte} (hrest : rest.length = 184)
    (hbehind : behindAdaptation control rest = some behind) :
    parsePacket (0x47 :: b1 :: b2 :: control :: rest) =
      some ⟨(b1 &&& 0x1f).toNat * 256 + b2.toNat, b1 &&& 0x40 ≠ 0, (control &&& 0x0f).toNat,
        if control &&& 0x10 ≠ 0 then behind else []⟩ := by
  rw [parsePacket, if_pos ⟨rfl, hrest⟩, hbehind]
  rfl

/-- The first `n` packets of a stream. -/
def parsePackets : Nat → List Byte → Option (List TsPacket)
  | 0, _ => some []
  | n + 1, bs => do
    let packet ← parsePacket (bs.take 188)
    let packets ← parsePackets n (bs.drop 188)
    return packet :: packets

def parseStream (bs : List Byte) : Option (List TsPacket) :=
  if bs.length % 188 = 0 then parsePackets (bs.length / 188) bs else none

/-- A stream is made of these packets. -/
inductive Encodes : List Byte → List TsPacket → Prop where
  | nil : Encodes [] []
  | cons {b bs : List Byte} {q : TsPacket} {qs : List TsPacket} :
      parsePacket b = some q → b.length = 188 → Encodes bs qs → Encodes (b ++ bs) (q :: qs)

namespace Encodes

variable {bs bs' : List Byte} {qs qs' : List TsPacket}

theorem one {b : List Byte} {q : TsPacket} (h : parsePacket b = some q) (hb : b.length = 188) :
    Encodes b [q] := by
  have := cons h hb nil
  rwa [List.append_nil] at this

theorem append (h : Encodes bs qs) (h' : Encodes bs' qs') : Encodes (bs ++ bs') (qs ++ qs') := by
  induction h with
  | nil => exact h'
  | cons hq hb _ ih =>
    rw [List.append_assoc]
    exact cons hq hb ih

theorem length (h : Encodes bs qs) : bs.length = qs.length * 188 := by
  induction h with
  | nil => rfl
  | cons _ hb _ ih =>
    rw [List.length_append, List.length_cons, hb, ih]
    omega

/-- Every packet starts with the sync byte. -/
theorem sync (h : Encodes bs qs) {i : Nat} (hi : i < qs.length) : bs[188 * i]? = some 0x47 := by
  induction h generalizing i with
  | nil => exact absurd hi (Nat.not_lt_zero _)
  | @cons b bs q qs hq hb _ ih =>
    cases i with
    | zero =>
      match b, hq, hb with
      | s :: b1 :: b2 :: control :: rest, hq, _ =>
        rw [parsePacket] at hq
        split at hq
        · rename_i hs
          rw [hs.1]
          rfl
        · cases hq
    | succ i =>
      rw [List.getElem?_append_right (by omega), hb, show 188 * (i + 1) - 188 = 188 * i by omega]
      exact ih (Nat.lt_of_succ_lt_succ hi)

theorem parsePackets (h : Encodes bs qs) : parsePackets qs.length bs = some qs := by
  induction h with
  | nil => rfl
  | cons hq hb _ ih => simp [Ts.parsePackets, ← hb, hq, ih]

theorem parseStream (h : Encodes bs qs) : parseStream bs = some qs := by
  rw [Ts.parseStream, h.length, if_pos (Nat.mul_mod_left ..), Nat.mul_div_cancel _ (by omega),
    h.parsePackets]

end Encodes

/-! ## PES packets -/

/-- The payloads of the packets before the next unit start, and the units from there on. -/
def collectUnits : List TsPacket → List Byte × List (List Byte)
  | [] => ([], [])
  | q :: qs =>
    let r := collectUnits qs
    if q.unitStart then ([], (q.payload ++ r.1) :: r.2) else (q.payload ++ r.1, r.2)

/-- The packets of one unit. -/
def IsUnit (u : List Byte) (qs : List TsPacket) : Prop :=
  ∃ q later, qs = q :: later ∧ q.unitStart = true ∧ (∀ r ∈ later, r.unitStart = false) ∧
    q.payload ++ later.flatMap (·.payload) = u

theorem collectUnits_later {later qs : List TsPacket} (h : ∀ r ∈ later, r.unitStart = false) :
    collectUnits (later ++ qs) =
      (later.flatMap (·.payload) ++ (collectUnits qs).1, (collectUnits qs).2) := by
  induction later with
  | nil => rfl
  | cons r later ih =>
    have hr := h r List.mem_cons_self
    rw [List.cons_append, collectUnits, ih fun r' hr' => h r' (List.mem_cons_of_mem _ hr'), hr,
      List.flatMap_cons, List.append_assoc]
    rfl

/-- A unit before packets that start with the next one. -/
theorem IsUnit.collectUnits {u : List Byte} {qs qs' : List TsPacket} {us : List (List Byte)}
    (h : IsUnit u qs) (hrest : collectUnits qs' = ([], us)) :
    collectUnits (qs ++ qs') = ([], u :: us) := by
  obtain ⟨q, later, rfl, hq, hlater, hu⟩ := h
  rw [List.cons_append, Ts.collectUnits, collectUnits_later hlater, hrest, hq, ← hu]
  simp

structure Pes where
  streamId : Byte
  pts : Option Nat
  data : List Byte
  deriving DecidableEq

def parsePts : List Byte → Option Nat
  | b0 :: b1 :: b2 :: b3 :: b4 :: _ =>
    some (b0.toNat / 2 % 8 * 2 ^ 30 + b1.toNat * 2 ^ 22 + b2.toNat / 2 * 2 ^ 15 + b3.toNat * 2 ^ 7 +
      b4.toNat / 2)
  | _ => none

/-- A PES packet with the optional header. The length zero is one of a packet that ends with its
unit. -/
def parsePes : List Byte → Option Pes
  | p0 :: p1 :: p2 :: streamId :: l1 :: l0 :: flags :: ptsFlags :: headerLength :: rest =>
    let length := l1.toNat * 256 + l0.toNat
    let header := rest.take headerLength.toNat
    let body := rest.drop headerLength.toNat
    if ¬ (p0 = 0 ∧ p1 = 0 ∧ p2 = 1) then none
    else if flags &&& 0xc0 ≠ 0x80 ∨ rest.length < headerLength.toNat then none
    else if ptsFlags &&& 0x80 ≠ 0 ∧ parsePts header = none then none
    else
      let pts := if ptsFlags &&& 0x80 ≠ 0 then parsePts header else none
      if length = 0 then some ⟨streamId, pts, body⟩
      else if 3 + headerLength.toNat ≤ length ∧ length ≤ 3 + rest.length then
        some ⟨streamId, pts, body.take (length - 3 - headerLength.toNat)⟩
      else none
  | _ => none

theorem parsePes_eq {streamId l1 l0 flags ptsFlags headerLength : Byte} {header body : List Byte}
    {t : Nat} (hflags : flags &&& 0xc0 = 0x80) (hpts : ptsFlags &&& 0x80 ≠ 0)
    (hlen : headerLength.toNat = header.length) (ht : parsePts header = some t)
    (hpes : l1.toNat * 256 + l0.toNat = 0 ∨
      l1.toNat * 256 + l0.toNat = 3 + header.length + body.length) :
    parsePes (0x00 :: 0x00 :: 0x01 :: streamId :: l1 :: l0 :: flags :: ptsFlags :: headerLength ::
      (header ++ body)) = some ⟨streamId, some t, body⟩ := by
  rw [parsePes]
  have hshort : ¬ (flags &&& 0xc0 ≠ 0x80 ∨ header.length + body.length < header.length) := by
    rintro (h | h)
    · exact h hflags
    · omega
  rw [if_neg (by decide), hlen, List.take_left, List.drop_left, List.length_append, if_neg hshort, ht,
    if_neg (by simp), if_pos hpts]
  rcases hpes with h | h
  · rw [if_pos h]
  · rw [if_neg (by omega), if_pos (by omega), h, List.take_of_length_le (by omega)]

/-- The packets of a PID. -/
def ofPid (pid : Nat) (qs : List TsPacket) : List TsPacket := qs.filter fun q => q.pid = pid

/-- The PES packets of a PID. -/
def demux (pid : Nat) (bs : List Byte) : Option (List Pes) := do
  let qs ← parseStream bs
  (collectUnits (ofPid pid qs)).2.mapM parsePes

/-- The continuity counters of a PID. -/
def counters (pid : Nat) (bs : List Byte) : Option (List Nat) := do
  let qs ← parseStream bs
  return (ofPid pid qs).map (·.counter)

/-! ## Program tables -/

/-- Twelve bits of a length, from a byte with other bits above them. -/
def length12 (high low : Byte) : Nat := (high &&& 0x0f).toNat * 256 + low.toNat

/-- Thirteen bits of a PID, from a byte with other bits above them. -/
def pid13 (high low : Byte) : Nat := (high &&& 0x1f).toNat * 256 + low.toNat

/-- The section that a payload starts with, and what follows it. -/
def splitSection : List Byte → Option (List Byte × List Byte)
  | [] => none
  | pointer :: rest =>
    match rest.drop pointer.toNat with
    | t :: l1 :: l0 :: behind =>
      let n := length12 l1 l0
      if n ≤ behind.length then some (t :: l1 :: l0 :: behind.take n, behind.drop n) else none
    | _ => none

/-- Descriptors with their tags; they take up all of the bytes. -/
def parseDescriptors : Nat → List Byte → Option (List (Byte × List Byte))
  | _, [] => some []
  | fuel + 1, tag :: len :: rest =>
    if len.toNat ≤ rest.length then
      (parseDescriptors fuel (rest.drop len.toNat)).map ((tag, rest.take len.toNat) :: ·)
    else none
  | _, _ => none

theorem parseDescriptors_cons {fuel : Nat} {tag len : Byte} {d rest : List Byte}
    (h : len.toNat = d.length) :
    parseDescriptors (fuel + 1) (tag :: len :: (d ++ rest)) =
      (parseDescriptors fuel rest).map ((tag, d) :: ·) := by
  rw [parseDescriptors, h, if_pos (by rw [List.length_append]; exact Nat.le_add_right ..),
    List.drop_left, List.take_left]

structure EsEntry where
  streamType : Byte
  pid : Nat
  descriptors : List (Byte × List Byte)
  deriving DecidableEq

/-- Entries for elementary streams; they take up all of the bytes. -/
def parseEntries : Nat → List Byte → Option (List EsEntry)
  | _, [] => some []
  | fuel + 1, t :: p1 :: p0 :: l1 :: l0 :: rest =>
    let n := length12 l1 l0
    if n ≤ rest.length then
      (parseDescriptors n (rest.take n)).bind fun descriptors =>
        (parseEntries fuel (rest.drop n)).map (⟨t, pid13 p1 p0, descriptors⟩ :: ·)
    else none
  | _, _ => none

/-- A program map: its clock's PID, the descriptors of the program, and the entries. -/
structure Pmt where
  pcrPid : Nat
  programInfo : List (Byte × List Byte)
  entries : List EsEntry
  deriving DecidableEq

/-- The section of a program map; `rest` ends with the checksum. -/
def parsePmt : List Byte → Option Pmt
  | t :: _ :: _ :: _ :: _ :: _ :: _ :: _ :: p1 :: p0 :: i1 :: i0 :: rest =>
    let body := rest.take (rest.length - 4)
    let n := length12 i1 i0
    if t = 0x02 ∧ 4 ≤ rest.length ∧ n ≤ body.length then
      (parseDescriptors n (body.take n)).bind fun programInfo =>
        (parseEntries body.length (body.drop n)).map (⟨pid13 p1 p0, programInfo, ·⟩)
    else none
  | _ => none

/-- Programs with their numbers and the PIDs of their maps. -/
def parsePrograms : List Byte → Option (List (Nat × Nat))
  | [] => some []
  | n1 :: n0 :: p1 :: p0 :: rest =>
    (parsePrograms rest).map ((n1.toNat * 256 + n0.toNat, pid13 p1 p0) :: ·)
  | _ => none

/-- The section of a program association; `rest` ends with the checksum. -/
def parsePat : List Byte → Option (List (Nat × Nat))
  | t :: _ :: _ :: _ :: _ :: _ :: _ :: _ :: rest =>
    if t = 0x00 ∧ 4 ≤ rest.length then parsePrograms (rest.take (rest.length - 4)) else none
  | _ => none

/-- CRC-32/MPEG-2. -/
def crcMpeg2 (data : List Byte) : BitVec 32 := Crc.remainder 0x04C11DB7 0xFFFFFFFF data

/-- A payload is one section, which `parse` reads as `table`, and filling. -/
def HoldsTable {α : Type} (parse : List Byte → Option α) (table : α → Prop) (payload : List Byte) :
    Prop :=
  ∃ sec filling t, splitSection payload = some (sec, filling) ∧ (∀ b ∈ filling, b = 0xff) ∧
    crcMpeg2 sec = 0 ∧ parse sec = some t ∧ table t

end VendorAmlogic.Ts
