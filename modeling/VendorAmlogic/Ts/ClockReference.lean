import VendorAmlogic.Ts.RoundTrip

/-!
# The clock reference of the packer

The branch of `TSPacker::packetize` for `EMIT_PCR`, against the layout of a
program clock reference: a base of 33 bits, six reserved bits and an extension
of nine bits, in six bytes. Five are written.
-/

namespace VendorAmlogic.Ts

open VendorAmlogic.Lib

/-- A program clock reference. -/
structure Pcr where
  base : Nat
  ext : Nat
  deriving DecidableEq

/-- The number whose bytes these are. -/
def beNat (bs : List Byte) : Nat := bs.foldl (fun n b => n * 256 + b.toNat) 0

/-- The clock reference of a packet that is all adaptation field. -/
def parsePcr : List Byte → Option Pcr
  | sync :: _ :: _ :: control :: len :: flags :: rest =>
    if sync = 0x47 ∧ control &&& 0x30 = 0x20 ∧ len.toNat = 183 ∧ flags &&& 0x10 ≠ 0 ∧
        rest.length = 182 then
      let field := beNat (rest.take 6)
      some ⟨field / 2 ^ 15, field % 2 ^ 9⟩
    else none
  | _ => none

/-- The packet has the time as a clock of 27 MHz. -/
def ClockRight (nowUs : Nat) (packet : List Byte) : Prop :=
  packet.length = 188 ∧
    parsePcr packet = some ⟨27 * nowUs / 300 % 2 ^ 33, 27 * nowUs % 300⟩

instance (nowUs : Nat) (packet : List Byte) : Decidable (ClockRight nowUs packet) :=
  inferInstanceAs (Decidable (_ ∧ _))

/-- The clock reference stands behind the tables. -/
theorem packetize_clock {cfg : Config} {p p' : Packer} {c : Call} {packets : List Byte}
    (h : packetize cfg p c = some (p', packets)) (hc : c.emitsPcr = true) :
    ∃ tables es, packets = tables ++ pcrPacket c.nowUs ++ es := by
  simp only [packetize, hc, if_true, Option.bind_eq_bind] at h
  obtain ⟨-, -, h⟩ := Option.bind_eq_some_iff.mp h
  obtain ⟨⟨q, tables⟩, -, h⟩ := Option.bind_eq_some_iff.mp h
  obtain ⟨⟨es, counter⟩, -, h⟩ := Option.bind_eq_some_iff.mp h
  obtain ⟨-, -, h⟩ := Option.bind_eq_some_iff.mp h
  cases h
  exact ⟨tables, es, rfl⟩

/-- What is read of the packet: the byte with the bits 8 to 1 of the base is missing, and the
last byte of the field is the first one that fills the packet up. -/
theorem parsePcr_pcrPacket (nowUs : Int) :
    ∃ base, parsePcr (pcrPacket nowUs) = some ⟨base, u64 (nowUs * 27) % 300 % 2 * 256 + 255⟩ := by
  set ext := u64 (nowUs * 27) % 300
  set field := pcrField (u64 (nowUs * 27) / 300) ext
  have heq : pcrPacket nowUs = (0x47 : Byte) :: highByte 0x40 kPidPcr :: lowByte kPidPcr :: 0x20 ::
      0xb7 :: 0x10 :: (field ++ List.replicate 177 0xff) := rfl
  have hlen : (field ++ List.replicate 177 (0xff : Byte)).length = 182 := by
    rw [List.length_append, List.length_replicate]
    rfl
  have htake : (field ++ List.replicate 177 (0xff : Byte)).take 6 =
      field.take 4 ++ [byte ext, 0xff] := rfl
  have hread : beNat (field.take 4 ++ [byte ext, 0xff]) =
      (beNat (field.take 4) * 256 + ext % 256) * 256 + 255 := by
    unfold beNat
    rw [List.foldl_append]
    rfl
  rw [heq, parsePcr, if_pos ⟨rfl, by decide, rfl, by decide, hlen⟩]
  dsimp only
  have hext (n : Nat) : ((n * 256 + ext % 256) * 256 + 255) % 2 ^ 9 = ext % 2 * 256 + 255 := by
    omega
  rw [htake, hread, hext]
  exact ⟨_, rfl⟩

/-- **The clock reference is never the time**. -/
theorem not_clockRight (nowUs : Nat) : ¬ ClockRight nowUs (pcrPacket nowUs) := by
  rintro ⟨-, h⟩
  obtain ⟨base, hread⟩ := parsePcr_pcrPacket nowUs
  rw [hread] at h
  have hext : u64 (nowUs * 27) % 300 % 2 * 256 + 255 = 27 * nowUs % 300 :=
    congrArg Pcr.ext (Option.some.inj h)
  -- an extension of 511 is too large, and one of 255 is odd as what is read as even is not
  unfold u64 at hext
  omega

/-- The start of the clock. -/
theorem not_clockRight_zero : ¬ ClockRight 0 (pcrPacket 0) := by
  rintro ⟨-, h⟩
  obtain ⟨base, hread⟩ := parsePcr_pcrPacket 0
  rw [hread] at h
  have hext : u64 (0 * 27) % 300 % 2 * 256 + 255 = 27 * 0 % 300 :=
    congrArg Pcr.ext (Option.some.inj h)
  exact absurd hext (by decide)

end VendorAmlogic.Ts
