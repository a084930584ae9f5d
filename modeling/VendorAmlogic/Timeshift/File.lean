import VendorAmlogic.Lib.Bytes

/-!
# The timeshift ring file

`aml_timeshift_file_*` of `am_av/aml/aml.c`: a recording kept in a ring of
`size` bytes spread over sub-files. The ring keeps its own cursors (`start`,
`read`, `write`, `avail`, `total`) and moves data through the sub-file layer
(`aml_timeshift_subfile_*`), which has the offsets of the file descriptors as
its own hidden cursors.

The file layer is written over `SubfileOps`, the three sub-file calls it makes,
so that one definition serves both the bookkeeping results (any transfer may
be short or fail) and the refinement result (ideal sub-files, `Subfile.lean`).

A call is one atomic step. `aml_timeshift_file_read` waits on the condition
variable while the ring is empty; a write that ends the wait is a write before
the read, one that does not come leaves the ring as it was.
-/

namespace VendorAmlogic.Timeshift

open VendorAmlogic.Lib

/-- The sub-file layer: `read` returns the result of `read(2)` and the bytes it
put into the buffer, `write` the number of bytes written, or a negative value;
`seek` moves the read (`true`) or the write descriptor. -/
structure SubfileOps (σ : Type) where
  read : σ → Nat → σ × Int × List Byte
  write : σ → List Byte → σ × Int
  seek : σ → Int → Bool → σ
  read_le : ∀ s n, (read s n).2.1 ≤ n
  write_le : ∀ s b, (write s b).2 ≤ b.length

/-- `AV_TimeshiftFile_t`; `sub` is the sub-file control part. -/
structure TFile (σ : Type) where
  opened : Bool
  size : Int
  avail : Int
  total : Int
  start : Int
  read : Int
  write : Int
  loop : Bool
  sub : σ

/-- `AM_AV_ERR_INVAL_ARG`, `AM_AV_ERR_SYS` (module 5). -/
def errInvalArg : Int := 5 * 2 ^ 24 + 4

def errSys : Int := 5 * 2 ^ 24 + 12

variable {σ : Type} (io : SubfileOps σ)

/-- The label `read_done`. -/
def readDone (t : TFile σ) (ret : Int) (buf : List Byte) : TFile σ × Int × List Byte :=
  if ret > 0 then
    ({ t with avail := if t.avail - ret < 0 then 0 else t.avail - ret }, ret, buf)
  else (t, ret, buf)

/-- The last transfer of a read of `size` bytes, of which `todo` are left and
`buf` holds the others. -/
def readTail (t : TFile σ) (size todo : Nat) (buf : List Byte) : TFile σ × Int × List Byte :=
  let r := io.read t.sub todo
  if r.2.1 > 0 then
    readDone { t with sub := r.1, read := (t.read + r.2.1).tmod t.size }
      (size - (todo - r.2.1)) (buf ++ r.2.2)
  else readDone { t with sub := r.1 } r.2.1 buf

/-- The part of a loop-mode read after `todo` is known. -/
def readLoop (t : TFile σ) (size : Nat) : TFile σ × Int × List Byte :=
  let split := if u64 (t.read + size) > u64 t.size then u64 (t.size - t.read) else 0
  if split > 0 then
    let r := io.read t.sub split
    if r.2.1 < 0 then readDone { t with sub := r.1 } r.2.1 []
    else if r.2.1 ≠ split then
      readDone { t with sub := r.1, read := t.read + r.2.1 } r.2.1 r.2.2
    else
      -- rewind the file
      readTail io { t with sub := io.seek r.1 0 true, read := 0 } size (size - split) r.2.2
  else readTail io t size size []

/-- `aml_timeshift_file_read`: the result and the bytes put into the buffer. -/
def amlTimeshiftFileRead (t : TFile σ) (size : Nat) : TFile σ × Int × List Byte :=
  if ! t.opened then (t, errInvalArg, [])
  else if ! t.loop then
    let r := io.read t.sub size
    readDone { t with sub := r.1 } r.2.1 r.2.2
  else if t.avail ≤ 0 then ({ t with avail := 0 }, -1, [])
  else readLoop io t (if size < u64 t.avail then size else u64 t.avail)

/-- The label `adjust_pos`: `ret` bytes were written. -/
def adjustPos (t : TFile σ) (ret : Int) : TFile σ :=
  if ret > 0 then
    let rleft := t.size - t.avail
    let sleft := t.size - t.total
    let write := (t.write + ret).tmod t.size
    { t with
      write := write
      read := if ret > rleft then write else t.read
      start := if ret > sleft then write else t.start
      avail := if t.avail < t.size then
          (if t.avail + ret > t.size then t.size else t.avail + ret) else t.avail
      total := if t.total < t.size then
          (if t.total + ret > t.size then t.size else t.total + ret) else t.total }
  else t

/-- The last transfer of a write, after `split` bytes went before the end. -/
def writeTail (t : TFile σ) (split : Nat) (buf : List Byte) : TFile σ × Int :=
  let r := io.write t.sub buf
  let ret := if r.2 > 0 then r.2 + split else if r.2 = 0 then split else r.2
  (adjustPos { t with sub := r.1 } ret, ret)

/-- The part of a loop-mode write after the oversize check. -/
def writeLoop (t : TFile σ) (buf : List Byte) : TFile σ × Int :=
  let split := if u64 (t.write + buf.length) > u64 t.size then u64 (t.size - t.write) else 0
  if split > 0 then
    let r := io.write t.sub (buf.take split)
    if r.2 < 0 then ({ t with sub := r.1 }, r.2)
    else if r.2 ≠ split then (adjustPos { t with sub := r.1 } r.2, r.2)
    else
      -- rewind the file
      writeTail io { t with sub := io.seek r.1 0 false } split (buf.drop split)
  else writeTail io t 0 buf

/-- `aml_timeshift_file_write`. An oversized buffer is cut to `size` bytes by
`size = fsize; buf += fsize - size`, which leaves `buf` where it is. -/
def amlTimeshiftFileWrite (t : TFile σ) (buf : List Byte) : TFile σ × Int :=
  if ! t.opened then (t, errInvalArg)
  else if ! t.loop then
    let r := io.write t.sub buf
    if r.2 > 0 then
      ({ t with sub := r.1, size := t.size + r.2, write := t.write + r.2,
                total := t.total + r.2, avail := t.avail + r.2 }, r.2)
    else ({ t with sub := r.1 }, r.2)
  else if buf.length > u64 t.size then
    let size := u64 t.size
    writeLoop io t ((buf.drop (u64 t.size - size)).take size)
  else writeLoop io t buf

/-- `aml_timeshift_file_seek`: the result is `1` for an offset out of range. -/
def amlTimeshiftFileSeek (t : TFile σ) (offset : Int) : TFile σ × Int :=
  if t.size ≤ 0 then (t, 1)
  else
    let (offset, ret) :=
      if offset > t.total then (t.total - 1, 1)
      else if offset < 0 then (0, 1)
      else (offset, 0)
    let read := (t.start + offset).tmod t.size
    ({ t with read := read, avail := t.total - offset, sub := io.seek t.sub read true }, ret)

/-- The rate measurement of `AV_TimeshiftData_t` around its ring file. -/
structure TShift (σ : Type) where
  file : TFile σ
  rate : Int
  duration : Int
  rtotal : Int
  rtime : Int

/-- The first half of `aml_timeshift_fill_data`, at clock `now` (ms) with
`size` bytes of data: measure the rate for three seconds, then fix the size of
the ring. -/
def amlTimeshiftFillRate (s : TShift σ) (now size : Int) : TShift σ :=
  if size > 0 ∧ s.rate = 0 then
    if s.rtime = 0 then { s with rtotal := 0, rtime := now }
    else if now - s.rtime ≥ 3000 then
      let rtotal := s.rtotal + size
      let rate := i32 ((rtotal * 1000).tdiv (now - s.rtime))
      if rate ≠ 0 ∧ s.file.loop then
        { s with rtotal := rtotal, rate := rate,
                 file := { s.file with size := rate * s.duration } }
      else { s with rtotal := rtotal, rate := rate, rtime := 0 }
    else { s with rtotal := s.rtotal + size }
  else s

/-- `aml_timeshift_fill_data`. -/
def amlTimeshiftFillData (s : TShift σ) (now : Int) (data : List Byte) : TShift σ × Int :=
  let s := amlTimeshiftFillRate s now data.length
  let r := amlTimeshiftFileWrite io s.file data
  ({ s with file := r.1 }, if r.2 ≠ data.length then errSys else 0)

/-- `SUB_FILE_SIZE`. -/
def subFileSize : Nat := 1024 * 1024 * 1024

/-- `aml_timeshift_file_open` in loop mode, over the freshly opened sub-files. -/
def amlTimeshiftFileOpen (sub : σ) : TFile σ where
  opened := true
  size := subFileSize
  avail := 0
  total := 0
  start := 0
  read := 0
  write := 0
  loop := true
  sub := sub

end VendorAmlogic.Timeshift
