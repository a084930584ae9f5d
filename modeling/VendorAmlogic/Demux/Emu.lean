import VendorAmlogic.Lib.Mem
import VendorAmlogic.Demux.Dvr
import VendorAmlogic.Demux.Psi

/-!
# The emulated demultiplexer

`am_dmx/emu/emu.c`: sections and PES data out of a transport stream file. The
parser keeps a list of PID channels and a list of filters; a channel is a stage
machine that collects the payloads of its packets, a filter has a ring buffer
that `emu_read` empties. What the source leaves undefined (a copy behind the
end of a channel's buffer, a division by zero) is `none`.

The clock and the timeout of a section filter are left out.
-/

namespace VendorAmlogic.Demux.Emu

open VendorAmlogic.Lib VendorAmlogic.Demux

inductive ChannelType where
  | sec
  | pes
  deriving DecidableEq

inductive ChannelStage where
  | start
  | header
  | pts
  | ptr
  | data
  | finish
  deriving DecidableEq

/-- `FILTER_BUF_SIZE`. -/
def filterBufSize : Nat := 4096 + 4

/-- `Filter_t`. -/
structure Filter where
  pid : BitVec 16
  value : Fin 18 → Byte
  maskandmode : Fin 18 → Byte
  maskandnotmode : Fin 18 → Byte
  neq : Bool
  type : ChannelType
  buf : Mem
  bufSize : Nat
  start : Nat
  bytes : Nat
  enable : Bool

/-- `Channel_t`. -/
structure Channel where
  pid : Nat
  buf : Mem
  bytes : Nat
  cc : Nat
  stage : ChannelStage
  type : ChannelType
  pts : Nat
  offset : Int

/-- `TSParser_t`. `buf` holds the bytes read and not yet parsed away, `fpos` is the
position of the file. -/
structure TSParser where
  channels : List Channel
  filters : List Filter
  buf : List Byte
  parsed : Nat
  packetLen : Nat
  rate : Int
  fpos : Int

/-! ## Filters -/

/-- `emu_alloc_filter`: a new filter at the head of the list, its buffer
uninitialised. -/
def emuAllocFilter (fresh : Mem) : Filter :=
  ⟨0, fun _ => 0, fun _ => 0, fun _ => 0, false, .sec, fresh, filterBufSize, 0, 0, false⟩

/-- The entry of the filter parameters that `emu_set_sec_filter` puts at a byte of
the section: the two length bytes are skipped. -/
def entryOf (pos : Fin 18) : Option (Fin 16) :=
  if h : pos.1 = 0 then some ⟨pos.1, by omega⟩
  else if h : 3 ≤ pos.1 then some ⟨pos.1 - 2, by omega⟩
  else none

/-- `emu_set_sec_filter`; what was at the length bytes of `value` stays. -/
def emuSetSecFilter (f : Filter) (p : SctFilterParams) : Filter :=
  { f with
    type := .sec
    pid := p.pid
    value := fun i => (entryOf i).elim (f.value i) p.filter
    maskandmode := fun i => (entryOf i).elim 0 fun e => p.mask e &&& ~~~ p.mode e
    maskandnotmode := fun i => (entryOf i).elim 0 fun e => p.mask e &&& ~~~ (~~~ p.mode e)
    neq := (List.finRange 16).any fun e => p.mask e &&& ~~~ (~~~ p.mode e) ≠ 0 }

/-- `emu_enable_filter`. -/
def emuEnableFilter (f : Filter) (enable : Bool) : Filter := { f with enable := enable, bytes := 0 }

/-- The match loop of `parse_payload`. -/
def matchLoop (f : Filter) (buf : Mem) : List (Fin 18) → (neq : Bool) → Bool
  | [], neq => ! (f.neq && ! neq)
  | i :: is, neq =>
    let x := buf i ^^^ f.value i
    if x &&& f.maskandmode i ≠ 0 then false
    else matchLoop f buf is (neq || x &&& f.maskandnotmode i ≠ 0)

def secMatch (f : Filter) (buf : Mem) : Bool := matchLoop f buf (List.finRange 18) false

/-- The ring position behind the data of a filter. -/
def Filter.tail (f : Filter) : Nat := (f.start + f.bytes) % f.bufSize

/-- `emu_read` with a buffer of `size` bytes; `none` is the timeout. -/
def emuRead (f : Filter) (size : Nat) : Filter × Option (List Byte) :=
  if f.bytes ≠ 0 then
    let pos1 := (f.start + 1) % f.bufSize
    let pos2 := (pos1 + 1) % f.bufSize
    let (len, cpy) := match f.type with
      | .sec => (secLen (f.buf pos1) (f.buf pos2), min (secLen (f.buf pos1) (f.buf pos2)) size)
      | .pes => (min f.bytes size, min f.bytes size)
    ({ f with start := (f.start + len) % f.bufSize, bytes := f.bytes - len },
      some (ringGet f.bufSize f.buf f.start cpy))
  else (f, none)

/-! ## Payloads -/

/-- `parse_pts`. -/
def parsePts (b : Mem) : Option Nat :=
  if b 3 = 0xBC ∨ b 3 = 0xBE ∨ b 3 = 0xBF ∨ b 3 = 0xF0 ∨ b 3 = 0xF1 ∨ b 3 = 0xFF ∨ b 3 = 0xF2 ∨
      b 3 = 0xF8 then none
  else if ((b 7).toNat >>> 6) &&& 2 = 0 then none
  else
    let v1 := ((b 9).toNat >>> 1) &&& 7
    let v2 := ((b 10).toNat <<< 7) ||| ((b 11).toNat >>> 1)
    let v3 := ((b 12).toNat <<< 7) ||| ((b 13).toNat >>> 1)
    some ((v1 <<< 30) ||| (v2 <<< 15) ||| v3)

/-- The stage `CHAN_STAGE_PTS`: the bit rate between two time stamps. -/
def takePts (p : TSParser) (c : Channel) : Option (TSParser × Channel) :=
  match parsePts c.buf with
  | none => some (p, c)
  | some pts =>
    let offset := i32 (p.fpos - p.buf.length + p.parsed)
    if c.pts ≠ 0 then
      let time := u64 ((pts : Int) - c.pts) / 90
      if time = 0 then none
      else some ({ p with rate := i32 (u64 (u64 (i32 (offset - c.offset)) * 1000) / time : Nat) }, c)
    else some (p, { c with pts := pts, offset := offset })

/-- PES data goes to the first enabled PES filter of the PID. -/
def putPes (fs : List Filter) (c : Channel) : List Filter :=
  match fs.findIdx? fun f => f.enable && (f.pid.toNat == c.pid) && (f.type == c.type) with
  | none => fs
  | some i => fs.modify i fun f =>
    let len := min (f.bufSize - f.bytes) c.bytes
    { f with buf := ringPut f.bufSize f.buf f.tail (c.buf.read 0 len) }

/-- The first enabled section filter of the PID that matches. -/
def findFilter (fs : List Filter) (c : Channel) : Option Nat :=
  fs.findIdx? fun f => f.enable && (f.type == c.type) && (f.pid.toNat == c.pid) && secMatch f c.buf

/-- A section into the ring of its filter; `none` is the overflow. -/
def putSec (f : Filter) (d : List Byte) : Option Filter :=
  if f.bufSize - f.bytes < d.length then none
  else some { f with buf := ringPut f.bufSize f.buf f.tail d, bytes := f.bytes + d.length }

/-- `memmove` of what is behind the first `n` bytes to the beginning. -/
def Channel.dropFirst (c : Channel) (n : Nat) : Channel :=
  { c with buf := c.buf.copy 0 (c.buf.read n (c.bytes - n)), bytes := c.bytes - n }

/-- From the label `retry` on. A round that goes back to it takes a section, so
`bytes` rounds are enough. -/
def retry : Nat → TSParser → Channel → Option (TSParser × Channel)
  | 0, _, _ => none
  | fuel + 1, p, c =>
    if c.stage = .data then
      match c.type with
      | .pes => some ({ p with filters := putPes p.filters c }, { c with bytes := 0 })
      | .sec =>
        if c.bytes < 1 then some (p, c)
        else if c.buf 0 = 0xFF then some (p, { c with stage := .finish, bytes := 0 })
        else if c.bytes < 3 then some (p, c)
        else
          let len := secLen (c.buf 1) (c.buf 2)
          if c.bytes < len then some (p, c)
          else
            let r := match findFilter p.filters c with
              | none => some p.filters
              | some i =>
                match p.filters[i]? with
                | none => some p.filters
                | some f => (putSec f (c.buf.read 0 len)).map fun f => p.filters.set i f
            match r with
            | none => some (p, c)
            | some fs =>
              let p := { p with filters := fs }
              let c := c.dropFirst len
              if c.bytes ≠ 0 then retry fuel p c else some (p, c)
    else if c.stage = .finish then some (p, { c with bytes := 0 })
    else some (p, c)

/-- `parse_payload` once the stage of the payload header is over. -/
def parseData (p : TSParser) (c : Channel) : Option (TSParser × Channel) :=
  if c.bytes = 0 then some (p, c) else retry c.bytes p c

/-- `parse_payload` once three bytes are there. -/
def parseStages (p : TSParser) (c : Channel) : Option (TSParser × Channel) :=
  let c := if c.stage = .header then
      if c.buf 0 = 0 ∧ c.buf 1 = 0 ∧ c.buf 2 = 1 then { c with type := .pes, stage := .pts }
      else { c with type := .sec, stage := .ptr }
    else c
  if c.stage = .pts then
    if c.bytes < 14 then some (p, c)
    else do
      let (p, c) ← takePts p c
      parseData p { c with stage := .data }
  else if c.stage = .ptr then
    let len := (c.buf 0).toNat + 1
    if c.bytes < len then some (p, c)
    else parseData p { c.dropFirst len with stage := .data }
  else parseData p c

/-- `parse_payload`. -/
def parsePayload (p : TSParser) (c : Channel) (data : List Byte) (start : Bool) :
    Option (TSParser × Channel) :=
  if ! start ∧ c.stage = .start then some (p, c)
  else
    let c := if start then { c with bytes := 0, stage := .header } else c
    if c.bytes + data.length > filterBufSize then none
    else
      let c := { c with buf := c.buf.copy c.bytes data, bytes := c.bytes + data.length }
      if c.bytes < 3 then some (p, c) else parseStages p c

/-! ## Packets -/

/-- `chan_reset`. -/
def chanReset (c : Channel) : Channel :=
  { c with bytes := 0, cc := 0xFF, offset := 0, pts := 0, stage := .start }

/-- `parser_get_chan`: the place of the channel in the list. A new channel is put
at the head; `fresh` is what is in its memory. -/
def parserGetChan (fresh : Channel) (p : TSParser) (pid : Nat) : TSParser × Nat :=
  match p.channels.findIdx? (·.pid == pid) with
  | some i => (p, i)
  | none => ({ p with channels := chanReset { fresh with pid := pid } :: p.channels }, 0)

/-- The packet length is known, or found out from the next sync byte. -/
def detectLen (p : TSParser) (b : List Byte) : Nat :=
  if p.packetLen ≠ 0 then p.packetLen
  else if b.length > 188 ∧ b.getD 188 0 = 0x47 then 188
  else if b.length > 204 ∧ b.getD 204 0 = 0x47 then 204
  else 0

/-- The packet at `parsed` is parsed. -/
def parsePacket (fresh : Channel) (p : TSParser) (b : List Byte) : Option TSParser :=
  let pid := tsPid b
  if pid = 0x1FFF then some p
  else if b.getD 1 0 &&& 0x80 ≠ 0 then some p
  else
    let (p, i) := parserGetChan fresh p pid
    match p.channels[i]? with
    | none => none
    | some c =>
      let pAvail : Bool := b.getD 3 0 &&& 0x10 ≠ 0
      let cc := (b.getD 3 0 &&& 0x0F).toNat
      let c := { c with cc := if pAvail then (cc + 1) &&& 0x0F else cc }
      let payload := tsPayload b
      if pAvail ∧ payload ≠ [] ∧ b.getD 3 0 &&& 0xC0 = 0 then do
        let (p, c) ← parsePayload p c payload (b.getD 1 0 &&& 0x40 ≠ 0)
        some { p with channels := p.channels.set i c }
      else some { p with channels := p.channels.set i c }

/-- `parse_ts_packet`; `false` is the result `0`. Behind the bytes read the sync
byte is looked for once more, to no effect. -/
def parseTsPacket (fresh : Channel) (p : TSParser) : Option (TSParser × Bool) :=
  match (p.buf.drop p.parsed).findIdx? (· == 0x47) with
  | none => some ({ p with parsed := p.buf.length }, false)
  | some k =>
    let p := { p with parsed := p.parsed + k }
    let b := p.buf.drop p.parsed
    let p := { p with packetLen := detectLen p b }
    if p.packetLen = 0 then some (p, false)
    else if b.length < p.packetLen then some (p, false)
    else do
      let p ← parsePacket fresh p b
      some ({ p with parsed := p.parsed + p.packetLen }, true)

end VendorAmlogic.Demux.Emu
