import VendorAmlogic.Lib.Crc

/-!
# The transport stream packer

`TSPacker::packetize` of `tspack.cpp` turns an access unit into packets of 188
bytes, with the program tables and a clock reference before them when the
flags ask for these. A buffer is the list of the bytes written into it; a
`CHECK` that fails is `none`. `alignPayload` is false throughout the source,
and its branches are left out.
-/

namespace VendorAmlogic.Ts

open VendorAmlogic.Lib

def kPidPmt : Nat := 0x100
def kPidPcr : Nat := 0x1000
def kPidVideo : Nat := 0x1100
def kPidAudio : Nat := 0x1110

/-- What `packetize` uses of the packer and does not change. -/
structure Config where
  hasAudio : Bool
  isPcmAudio : Bool
  csd : List (List Byte)

/-- What `packetize` changes of the packer. -/
structure Packer where
  patContinuityCounter : Nat
  pmtContinuityCounter : Nat
  audioContinuityCounter : Nat
  videoContinuityCounter : Nat
  headFinalized : Bool
  descriptors : List (List Byte)

/-- The constructor. -/
def Packer.init : Packer := ⟨0, 0, 0, 0, false, []⟩

/-- The arguments of `packetize`, and the time of day when it is called. -/
structure Call where
  isAudio : Bool
  buffer : List Byte
  flags : BitVec 32
  pesPrivateData : List Byte
  numStuffingBytes : Nat
  timeUs : Int
  nowUs : Int

/-- A byte of an integer. -/
def byte (n : Nat) : Byte := BitVec.ofNat 8 n

/-- `bits | (n >> 8)`. -/
def highByte (bits : Byte) (n : Nat) : Byte := bits ||| byte (n >>> 8)

/-- `n & 0xff`. -/
def lowByte (n : Nat) : Byte := byte (n &&& 0xff)

/-- The first four bytes of a packet; `unitStart` is `0x40` where a section or an access unit
starts. -/
def tsHeader (unitStart : Byte) (pid counter numPaddingBytes : Nat) : List Byte :=
  [0x47, highByte unitStart pid, lowByte pid, (if 0 < numPaddingBytes then 0x30 else 0x10) ||| byte counter]

/-! ## The checksum -/

/-- The table of `initCrcTable`. -/
def crcTable (i : Nat) : BitVec 32 :=
  let step (crc : BitVec 32) : BitVec 32 :=
    (crc <<< 1) ^^^ (if crc &&& 0x80000000 ≠ 0 then 0x04C11DB7 else 0)
  step (step (step (step (step (step (step (step (BitVec.ofNat 32 i <<< 24))))))))

def crc32 (data : List Byte) : BitVec 32 :=
  data.foldl
    (fun crc p => (crc <<< 8) ^^^ crcTable (((crc >>> 24) ^^^ p.setWidth 32) &&& 0xff).toNat)
    0xFFFFFFFF

/-! ## Program tables -/

/-- `++counter`, and zero again at sixteen. -/
def increment (counter : Nat) : Nat := if counter + 1 = 16 then 0 else counter + 1

/-- The codec specific data that `headFinalize` checks for. -/
def Config.CsdOk (cfg : Config) : Prop :=
  ∀ sps ∈ cfg.csd.head?, sps.take 4 = [0, 0, 0, 1] ∧ 7 ≤ sps.length

instance (cfg : Config) : Decidable cfg.CsdOk :=
  inferInstanceAs (Decidable (∀ sps ∈ cfg.csd.head?, sps.take 4 = [0, 0, 0, 1] ∧ 7 ≤ sps.length))

/-- `profile_idc`, `constraint_set` and `level_idc`. -/
def Config.profile (cfg : Config) : List Byte :=
  match cfg.csd with
  | sps :: _ => (sps.drop 4).take 3
  | [] => [100, 12, 32]

/-- AVC video descriptor (40). -/
def Config.avcDescriptor (cfg : Config) : List Byte := [40, 4] ++ cfg.profile ++ [0x3f]

/-- AVC timing and HRD descriptor (42). -/
def hrdDescriptor : List Byte := [42, 2, 0x7e, 0x1f]

/-- LPCM audio stream descriptor (0x83). -/
def lpcmDescriptor : List Byte := [0x83, 2, (2 <<< 5) ||| (3 <<< 1) ||| 0, (1 <<< 5) ||| 0xf]

def Config.descriptors (cfg : Config) : List (List Byte) :=
  if cfg.hasAudio && cfg.isPcmAudio then [cfg.avcDescriptor, hrdDescriptor, lpcmDescriptor]
  else [cfg.avcDescriptor, hrdDescriptor]

def headFinalize (cfg : Config) (p : Packer) : Option Packer :=
  if p.headFinalized then some p
  else if cfg.CsdOk then
    some { p with headFinalized := true, descriptors := p.descriptors ++ cfg.descriptors }
  else none

/-- A packet with a section: its header, the section, its checksum, and the rest filled up. -/
def sectionPacket (pid counter : Nat) (data : List Byte) : List Byte :=
  let packet := tsHeader 0x40 pid counter 0 ++ (0x00 :: data ++ Crc.toBytes (crc32 data))
  packet ++ List.replicate (188 - packet.length) 0xff

def patSection : List Byte :=
  [0x00, 0xb0, 0x0d, 0x00, 0x00, 0xc3, 0x00, 0x00, 0x00, 0x01, highByte 0xe0 kPidPmt, lowByte kPidPmt]

/-- An entry for an elementary stream, up to its descriptors. -/
def esEntry (streamType : Byte) (pid esInfoLength : Nat) : List Byte :=
  [streamType, highByte 0xe0 pid, lowByte pid, highByte 0xf0 esInfoLength, lowByte esInfoLength]

/-- The entries for the tracks. -/
def esEntries (cfg : Config) (descriptors : List (List Byte)) : Option (List Byte) := do
  let avc ← descriptors[0]?
  let hrd ← descriptors[1]?
  let video := esEntry 0x1b kPidVideo 10 ++ avc ++ hrd
  if cfg.hasAudio then
    let entry := esEntry (if cfg.isPcmAudio then 0x83 else 0x0f) kPidAudio 4
    if cfg.isPcmAudio then
      let lpcm ← descriptors[2]?
      return video ++ (entry ++ lpcm)
    else return video ++ entry
  else return video

/-- The section of the program map from behind its length up to the entries. -/
def pmtHead : List Byte :=
  [0x00, 0x01, 0xc3, 0x00, 0x00, highByte 0xe0 kPidPcr, lowByte kPidPcr, highByte 0xf0 0, lowByte 0]

/-- The section of the program map with the entries `es`; its length is filled in afterwards. -/
def pmtSection (es : List Byte) : List Byte :=
  let rest := pmtHead ++ es
  let sectionLength := rest.length + 4
  0x02 :: highByte 0xb0 sectionLength :: lowByte sectionLength :: rest

/-- The branch for `EMIT_PAT_AND_PMT`. -/
def emitPatAndPmt (cfg : Config) (p : Packer) : Option (Packer × List Byte) := do
  let pat := increment p.patContinuityCounter
  let pmt := increment p.pmtContinuityCounter
  let p ← headFinalize cfg { p with patContinuityCounter := pat, pmtContinuityCounter := pmt }
  let es ← esEntries cfg p.descriptors
  return (p, sectionPacket 0 pat patSection ++ sectionPacket kPidPmt pmt (pmtSection es))

/-! ## Clock reference -/

/-- The reference as `PCR_base` and `PCR_ext`. -/
def pcrField (base ext : Nat) : List Byte :=
  [byte (base >>> 25), byte (base >>> 17), byte (base >>> 9),
    byte ((base &&& 1) <<< 7) ||| 0x7e ||| byte ((ext >>> 8) &&& 1), byte ext]

/-- The branch for `EMIT_PCR`. -/
def pcrPacket (nowUs : Int) : List Byte :=
  let pcr := u64 (nowUs * 27)
  let packet : List Byte := 0x47 :: highByte 0x40 kPidPcr :: lowByte kPidPcr ::
    0x20 :: 0xb7 :: 0x10 :: pcrField (pcr / 300) (pcr % 300)
  packet ++ List.replicate (188 - packet.length) 0xff

/-! ## Access units -/

def pts (timeUs : Int) : Nat := u64 ((i64 (timeUs * 9)).tdiv 100)

namespace Call

variable (c : Call)

def emitsTables : Bool := c.flags &&& 1 ≠ 0

def emitsPcr : Bool := c.flags &&& 2 ≠ 0

def streamPid : Nat := if c.isAudio then kPidAudio else kPidVideo

def streamId (cfg : Config) : Byte :=
  if c.isAudio then if cfg.isPcmAudio then 0xbd else 0xc0 else 0xe0

/-- What private data adds to a length. -/
def privateLen : Nat := if 0 < c.pesPrivateData.length then c.pesPrivateData.length + 1 else 0

def pesPacketLength : Nat := c.buffer.length + 8 + c.numStuffingBytes + c.privateLen

def pesHeaderSize : Nat := 14 + c.numStuffingBytes + c.privateLen

/-- The number of packets the buffer is made for. -/
def numTSPackets : Nat :=
  let numBytesOfPayload := min c.buffer.length (188 - 4 - c.pesHeaderSize)
  let remaining := c.buffer.length - numBytesOfPayload
  let full := remaining / 184
  let left := remaining - full * 184
  1 + full + (if full = 0 ∧ 0 < left then 1 else if 0 < full ∧ 184 < left + 184 then 1 else 0) +
    (if c.emitsTables then 2 else 0) + (if c.emitsPcr then 1 else 0)

/-- The time stamp in the header of the PES packet. -/
def ptsField : List Byte :=
  let t := pts c.timeUs
  [byte (0x20 ||| (((t >>> 30) &&& 7) <<< 1) ||| 1), byte (t >>> 22),
    byte ((((t >>> 15) &&& 0x7f) <<< 1) ||| 1), byte (t >>> 7), byte (((t &&& 0x7f) <<< 1) ||| 1)]

/-- The header of the PES packet up to its length field. -/
def pesStart (cfg : Config) : List Byte :=
  let length := if 65536 ≤ c.pesPacketLength then 0 else c.pesPacketLength
  [0x00, 0x00, 0x01, c.streamId cfg, byte (length >>> 8), lowByte length, 0x84,
    if 0 < c.pesPrivateData.length then 0x81 else 0x80, byte (5 + c.numStuffingBytes + c.privateLen)]

/-- The header of the PES packet. -/
def pesHeader (cfg : Config) : List Byte :=
  c.pesStart cfg ++ (c.ptsField ++
    ((if 0 < c.pesPrivateData.length then 0x8e :: c.pesPrivateData else []) ++
      List.replicate c.numStuffingBytes 0xff))

end Call

/-- The adaptation field that fills a packet up. -/
def padding (numPaddingBytes : Nat) : List Byte :=
  if 0 < numPaddingBytes then
    byte (numPaddingBytes - 1) ::
      (if 2 ≤ numPaddingBytes then 0x00 :: List.replicate (numPaddingBytes - 2) 0xff else [])
  else []

/-- A packet of an access unit: `head` is the PES header in the first one; `copy` bytes of `rest`
follow. -/
def esPacket (unitStart : Byte) (pid counter : Nat) (head rest : List Byte) :
    Option (List Byte × Nat) :=
  let sizeAvailableForPayload := 184 - head.length
  let copy := min rest.length sizeAvailableForPayload
  let numPaddingBytes := sizeAvailableForPayload - copy
  let packet := tsHeader unitStart pid counter numPaddingBytes ++ padding numPaddingBytes ++ head ++
    rest.take copy
  if packet.length = 188 then some (packet, copy) else none

/-- The loop over the rest of an access unit; it gives the counter after it too. -/
def laterPackets (pid : Nat) : Nat → Nat → List Byte → Option (List Byte × Nat)
  | 0, counter, rest => if rest = [] then some ([], counter) else none
  | fuel + 1, counter, rest =>
    if rest = [] then some ([], counter)
    else do
      let (packet, copy) ← esPacket 0x00 pid counter [] rest
      let (packets, counter) ← laterPackets pid fuel (increment counter) (rest.drop copy)
      return (packet ++ packets, counter)

/-- The packets of an access unit. -/
def esPackets (cfg : Config) (counter : Nat) (c : Call) : Option (List Byte × Nat) := do
  let (packet, copy) ← esPacket 0x40 c.streamPid counter (c.pesHeader cfg) c.buffer
  let (packets, counter) ←
    laterPackets c.streamPid c.buffer.length (increment counter) (c.buffer.drop copy)
  return (packet ++ packets, counter)

/-- The counter that `incrementContinuityCounter` uses. -/
def Packer.counter (p : Packer) (isAudio : Bool) : Nat :=
  if isAudio then p.audioContinuityCounter else p.videoContinuityCounter

def Packer.setCounter (p : Packer) (isAudio : Bool) (counter : Nat) : Packer :=
  if isAudio then { p with audioContinuityCounter := counter }
  else { p with videoContinuityCounter := counter }

/-- The program tables, if the flags ask for them. -/
def emitTables (cfg : Config) (p : Packer) (c : Call) : Option (Packer × List Byte) :=
  if c.emitsTables then emitPatAndPmt cfg p else some (p, [])

def packetize (cfg : Config) (p : Packer) (c : Call) : Option (Packer × List Byte) := do
  guard (c.pesHeaderSize ≤ 188 - 4)
  let (p, tables) ← emitTables cfg p c
  let clock := if c.emitsPcr then pcrPacket c.nowUs else []
  let (es, counter) ← esPackets cfg (p.counter c.isAudio) c
  let packets := tables ++ clock ++ es
  guard (packets.length = c.numTSPackets * 188)
  return (p.setCounter c.isAudio counter, packets)

/-- A sequence of calls, with what each gives. -/
def packetizeAll (cfg : Config) : Packer → List Call → Option (Packer × List (List Byte))
  | p, [] => some (p, [])
  | p, c :: cs => do
    let (p, out) ← packetize cfg p c
    let (p, outs) ← packetizeAll cfg p cs
    return (p, out :: outs)

end VendorAmlogic.Ts
