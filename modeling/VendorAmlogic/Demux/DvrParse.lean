import VendorAmlogic.Lib.Trace
import VendorAmlogic.Demux.Dvr
import VendorAmlogic.Demux.Psi

/-!
# The DVR software demultiplexer: packets

`parse_ts_packet` of `am_dmx/dvr/dvr.c` and what it calls. `data_cb` gives up
the device lock while the callback runs, so other calls of the filter
interface may come in between: `St.env` lists, for each callback to come, the
calls made during it. Every completed section is an event, with the device as
it is when the filter is chosen.
-/

namespace VendorAmlogic.Demux

open VendorAmlogic.Lib

structure St where
  dev : Dev
  env : List (List Op)

/-- A section `data`, which came on `pid`, is complete in channel `chan`; `filter`
is the driver's filter it goes to. -/
structure SecEvent where
  dev : Dev
  chan : Fin 32
  pid : Nat
  data : List Byte
  filter : Option (Fin 32)

/-- The call of `data_cb` for a section: the device's filter and the data. -/
def SecEvent.callback (e : SecEvent) : Option (Fin 32 × List Byte) := do
  let g ← e.filter
  let a ← (e.dev.dvrFilters g).dmxFilter
  some (a, e.data)

def St.setChan (s : St) (ch : Fin 32) (c : DvrChannel) : St := { s with dev := s.dev.setChan ch c }

def St.chan (s : St) (ch : Fin 32) : DvrChannel := s.dev.dvrChannels ch

/-- `ch->size = 0`. -/
def St.clear (s : St) (ch : Fin 32) : St := s.setChan ch { s.chan ch with size := 0 }

/-! ## Sections -/

/-- The match loop of `check_sec`. -/
def matchLoop (f : DvrFilter) (buf : List Byte) : List (Fin 16) → (checkNeq neq : Bool) → Bool
  | [], checkNeq, neq => ! (checkNeq && ! neq)
  | i :: is, checkNeq, neq =>
    let x := buf.getD i 0 ^^^ f.filter i
    if x &&& f.maskandmode i ≠ 0 then false
    else matchLoop f buf is (checkNeq || f.maskandnotmode i ≠ 0) (neq || x &&& f.maskandnotmode i ≠ 0)

def secMatch (f : DvrFilter) (buf : List Byte) : Bool :=
  matchLoop f buf (List.finRange 16) false false

/-- The first used filter on the channel that matches its buffer. -/
def findMatch (d : Dev) (ch : Fin 32) : Option (Fin 32) :=
  Fin.find? fun fid => (d.dvrFilters fid).used && ((d.dvrFilters fid).chan == some ch) &&
    secMatch (d.dvrFilters fid) (d.dvrChannels ch).buf

def runOps (d : Dev) : List Op → Option Dev
  | [] => some d
  | op :: ops => (call d op).bind fun r => runOps r.1 ops

/-- `data_cb`: what happens to the device while the lock is given up. -/
def dataCb (s : St) : Option St :=
  match s.env with
  | [] => some s
  | ops :: env => (runOps s.dev ops).map fun d => ⟨d, env⟩

/-- The filter loop of `check_sec` for a complete section. -/
def dispatch (pid : Nat) (s : St) (ch : Fin 32) : Trace SecEvent St :=
  let data := (s.chan ch).buf.1.take (s.chan ch).size
  match findMatch s.dev ch with
  | none => .emit ⟨s.dev, ch, pid, data, none⟩ s
  | some g =>
    match (s.dev.dvrFilters g).dmxFilter with
    | none => .stop
    | some _ => do
      let s ← Trace.emit ⟨s.dev, ch, pid, data, some g⟩ s
      .ofOption (dataCb s)

/-- The header copy of `check_sec`; the number is that of the bytes taken. -/
def fillHeader (c : DvrChannel) (data : List Byte) : Option (DvrChannel × Nat) :=
  if c.size < 3 then do
    let cpy := 3 - c.size
    let buf ← c.buf.put c.size (data.take cpy)
    some ({ c with buf := buf, size := 3 }, cpy)
  else some (c, 0)

/-- The length of the section whose header is in the buffer. -/
def DvrChannel.slen (c : DvrChannel) : Nat := secLen (c.buf.1.getD 1 0) (c.buf.1.getD 2 0)

/-- The body copy of `check_sec`; a negative count copies out of bounds. -/
def fillBody (c : DvrChannel) (data : List Byte) : Option (DvrChannel × Nat) :=
  if c.slen < c.size then none
  else do
    let cpy := min (c.slen - c.size) data.length
    let buf ← c.buf.put c.size (data.take cpy)
    some ({ c with buf := buf, size := c.size + cpy }, cpy)

def fillSec (c : DvrChannel) (data : List Byte) : Option (DvrChannel × Nat) := do
  let (c, ret) ← fillHeader c data
  let (c, cpy) ← fillBody c (data.drop ret)
  some (c, ret + cpy)

/-- `check_sec`: the number of bytes taken from `data`. The first branch leaves
`size` as it is. -/
def checkSec (pid : Nat) (s : St) (ch : Fin 32) (data : List Byte) : Trace SecEvent (St × Nat) := do
  let c := s.chan ch
  if c.size + data.length < 3 then
    let buf ← Trace.ofOption (c.buf.put c.size data)
    return (s.setChan ch { c with buf := buf }, data.length)
  else
    let (c, ret) ← Trace.ofOption (fillSec c data)
    let s := s.setChan ch c
    if c.slen = c.size then
      let s ← dispatch pid s ch
      return (s.clear ch, ret)
    else
      return (s, ret)

/-- The loop of `parse_sec`. A round that takes nothing completes a section and
leaves an empty buffer, so `2 * left + 1` rounds are enough. -/
def secLoop (pid : Nat) (ch : Fin 32) : Nat → (first : Bool) → St → List Byte → Trace SecEvent St
  | 0, _, _, _ => .stop
  | fuel + 1, first, s, data =>
    if data ≠ [] ∧ (first ∨ data.getD 0 0 ≠ 0xFF) then do
      let (s, cnt) ← checkSec pid s ch data
      secLoop pid ch fuel false s (data.drop cnt)
    else pure s

def secRounds (data : List Byte) : Nat := 2 * data.length + 1

/-- `parse_sec`. -/
def parseSec (pid : Nat) (s : St) (ch : Fin 32) (data : List Byte) (pStart : Bool) :
    Trace SecEvent St := do
  if pStart then
    let pointer := (data.getD 0 0).toNat
    let data := data.drop 1
    let s ← if data.length ≥ pointer then do
        let (s, _) ← checkSec pid s ch (data.take pointer)
        pure s
      else pure s
    let data := data.drop pointer
    secLoop pid ch (secRounds data) true (s.clear ch) data
  else secLoop pid ch (secRounds data) true s data

/-- `parse_pes`. Nothing ever sets `ch->filters`. -/
def parsePes (s : St) (ch : Fin 32) : Trace SecEvent St :=
  match (s.chan ch).filters with
  | none => .stop
  | some g =>
    match (s.dev.dvrFilters g).dmxFilter with
    | none => .stop
    | some _ => .ofOption (dataCb s)

/-! ## Packets -/

/-- The channel of a PID. -/
def findPid (d : Dev) (pid : Nat) : Option (Fin 32) :=
  Fin.find? fun i => (d.dvrChannels i).used ≠ 0 ∧ (d.dvrChannels i).pid = pid

/-- `parse_ts_packet`: the number of bytes used. -/
def parseTsPacket (s : St) (buf : List Byte) : Trace SecEvent (St × Nat) := do
  let off := (buf.findIdx? (· == 0x47)).getD buf.length
  let p := buf.drop off
  if p.length < 188 then return (s, off)
  if tsPid p ≠ 0x1FFF ∧ p.getD 3 0 &&& 0xC0 = 0 ∧ p.getD 1 0 &&& 0x80 = 0 ∧
      p.getD 3 0 &&& 0x10 ≠ 0 then
    match findPid s.dev (tsPid p) with
    | none => return (s, off + 188)
    | some ch =>
      let payload := tsPayload p
      let s ← if payload ≠ [] then
          if (s.chan ch).isSec then
            parseSec (tsPid p) s ch payload (p.getD 1 0 &&& 0x40 ≠ 0)
          else parsePes s ch
        else pure s
      return (s.setChan ch { s.chan ch with cc := (p.getD 3 0 &&& 0x0F).toNat }, off + 188)
  else return (s, off + 188)

/-- One packet; the bytes behind it are left to the next call. -/
def packetStep (s : St) (buf : List Byte) : Trace SecEvent St := do
  let (s, _) ← parseTsPacket s buf
  return s

end VendorAmlogic.Demux
