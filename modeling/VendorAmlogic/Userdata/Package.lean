import VendorAmlogic.Lib.Run
import VendorAmlogic.Lib.Ring
import VendorAmlogic.Lib.Stdio

/-!
# The package queue of a userdata device

`am_userdata/am_userdata.c`: packages go through a ring of bytes, each behind
its length as an `int`. `userdata_package_write` and `userdata_package_read`
run with the lock of the device; `AM_USERDATA_Read` gives the lock up while it
waits, so what it does behind the wait is a step of its own. A copy that leaves
the ring is an `overrun`.
-/

namespace VendorAmlogic.Userdata

open VendorAmlogic.Lib

/-! ## The source -/

/-- `(ssize_t)`. -/
def ssize (x : Int) : Int := x.bmod (2 ^ 64)

/-- `AM_USERDATA_RingBuffer_t`. -/
structure RingBuffer where
  data : List Byte
  pread : Nat
  pwrite : Nat
  deriving DecidableEq

namespace RingBuffer

def size (r : RingBuffer) : Nat := r.data.length

/-- `userdata_ring_buf_init`, on the memory from `malloc`. -/
def init (data : List Byte) : RingBuffer := ⟨data, 0, 0⟩

/-- `userdata_ring_buf_free`. -/
def free (r : RingBuffer) : Int :=
  let free : Int := r.pread - r.pwrite
  (if free ≤ 0 then free + r.size else free) - 1

/-- `userdata_ring_buf_avail`. -/
def avail (r : RingBuffer) : Int :=
  let avail : Int := r.pwrite - r.pread
  if avail < 0 then avail + r.size else avail

/-- `userdata_ring_buf_read`: the bytes copied and the ring behind them. -/
def read (r : RingBuffer) (len : Nat) : Option (List Byte × RingBuffer) :=
  let split := if (r.size : Int) < ssize (r.pread + len) then r.size - r.pread else 0
  let todo := len - split
  let pread := if 0 < split then 0 else r.pread
  if pread + todo ≤ r.size then
    some ((r.data.drop r.pread).take split ++ (r.data.drop pread).take todo,
      { r with pread := (pread + todo) % r.size })
  else none

/-- `userdata_ring_buf_write`. -/
def write (r : RingBuffer) (buf : List Byte) : Option RingBuffer :=
  let split := if (r.size : Int) < ssize (r.pwrite + buf.length) then r.size - r.pwrite else 0
  let data := put r.data r.pwrite (buf.take split)
  let todo := buf.drop split
  let pwrite := if 0 < split then 0 else r.pwrite
  if pwrite + todo.length ≤ r.size then
    some { r with data := put data pwrite todo, pwrite := (pwrite + todo.length) % r.size }
  else none

/-- `read_unused_data`; `alloc` tells whether its `malloc` succeeds. -/
def skip (r : RingBuffer) (len : Nat) (alloc : Bool) : Option RingBuffer :=
  if alloc then (r.read len).map Prod.snd else some r

end RingBuffer

/-- The bytes of an `int`. -/
def intBytes (x : Int) : List Byte := leBytes 4 (u32 x)

def intOf (d : List Byte) : Int := i32 (ofLe d)

inductive Op where
  | write (buf : List Byte)
  | packageRead (size : Int) (alloc : Bool)
  | read (size : Int) (alloc : Bool)
  | wake (size : Int) (timedOut alloc : Bool)
  deriving DecidableEq

/-- What a step answers. `mismatch` is the branch that expects more bytes than there are;
`waits` is a reader that goes to sleep. -/
inductive Ret where
  | rejected
  | accepted (ret : Int)
  | got (cnt : Int) (buf : List Byte)
  | mismatch
  | waits
  | failed
  | overrun
  deriving DecidableEq

/-- `userdata_package_write`. -/
def packageWrite (r : RingBuffer) (buf : List Byte) : RingBuffer × Ret :=
  if i32 r.free < i32 (buf.length + 4) then (r, .rejected)
  else
    match (r.write (intBytes (i32 buf.length))).bind (·.write buf) with
    | some r => (r, .accepted (i32 buf.length))
    | none => (r, .overrun)

/-- The part of `userdata_package_read` behind the length. -/
def packageBody (r : RingBuffer) (udCnt size : Int) (alloc : Bool) : RingBuffer × Ret :=
  if i32 r.avail < udCnt then
    match r.skip 0 alloc with
    | some r => (r, .mismatch)
    | none => (r, .overrun)
  else if size < udCnt then
    match r.skip (u64 udCnt) alloc with
    | some r => (r, .got 0 [])
    | none => (r, .overrun)
  else if 0 < udCnt then
    match r.read (u64 udCnt) with
    | some (buf, r) => (r, .got udCnt buf)
    | none => (r, .overrun)
  else (r, .got 0 [])

/-- `userdata_package_read`. -/
def packageRead (r : RingBuffer) (size : Int) (alloc : Bool) : RingBuffer × Ret :=
  if 4 < i32 r.avail then
    match r.read 4 with
    | none => (r, .overrun)
    | some (head, r) => packageBody r (intOf head) size alloc
  else
    match r.skip 0 alloc with
    | some r => (r, .got 0 [])
    | none => (r, .overrun)

/-- A step with the lock of the device. -/
def step (r : RingBuffer) : Op → RingBuffer × Ret
  | .write buf => packageWrite r buf
  | .packageRead size alloc => packageRead r size alloc
  | .read size alloc => if i32 r.avail ≤ 0 then (r, .waits) else packageRead r size alloc
  | .wake size timedOut alloc =>
    if timedOut ∨ i32 r.avail ≤ 0 then (r, .failed) else packageRead r size alloc

/-! ## A queue -/

/-- The bytes a queue takes. -/
def used (q : List (List Byte)) : Nat := (q.map fun p => p.length + 4).sum

/-- The front package goes to the reader, or away if it does not fit. -/
def queueTake (size : Int) (empty : Ret) : List (List Byte) → List (List Byte) × Ret
  | [] => ([], empty)
  | p :: q => if (p.length : Int) ≤ size then (q, .got p.length p) else (q, .got 0 [])

/-- What the device should do: a queue of packages that takes at most `cap - 1` bytes. -/
def queueStep (cap : Nat) (q : List (List Byte)) : Op → List (List Byte) × Ret
  | .write buf =>
    if buf.length + 4 ≤ cap - 1 - used q then (q ++ [buf], .accepted buf.length)
    else (q, .rejected)
  | .packageRead size _ => queueTake size (.got 0 []) q
  | .read size _ => queueTake size .waits q
  | .wake size timedOut _ => if timedOut then (q, .failed) else queueTake size .failed q

/-- A run on a ring answers as the queue does, never with `mismatch` or `overrun`, and a write it
rejects changes nothing. -/
structure Fifo (data : List Byte) (ops : List Op) : Prop where
  answers : (run step (.init data) ops).2 = (run (queueStep data.length) [] ops).2
  regular : Ret.mismatch ∉ (run step (.init data) ops).2 ∧ Ret.overrun ∉ (run step (.init data) ops).2
  rejected : Each (fun r op => (step r op).2 = .rejected → (step r op).1 = r) step (.init data) ops

/-! ## The ring -/

/-- What the ring holds. -/
def RingBuffer.Holds (r : RingBuffer) (held free : List Byte) : Prop :=
  Lib.Holds r.data r.pread r.pwrite held free ∧ r.size ≤ 2 ^ 31

theorem ssize_eq_self {n : Nat} (h : n < 2 ^ 63) : ssize n = n := by
  unfold ssize
  exact Int.bmod_eq_of_le (by omega) (by omega)

namespace RingBuffer

variable {r : RingBuffer} {held free d : List Byte} {n : Nat}

theorem Holds.avail_eq (h : r.Holds held free) : r.avail = held.length := by
  have hlen := h.1.length_eq
  have hpos := h.1.free_pos
  simp only [avail, size]
  rcases h.1.write_cases with hw | hw
  · rw [if_neg (by omega)]; omega
  · rw [if_pos (by omega)]; omega

theorem Holds.free_eq (h : r.Holds held free) : r.free = free.length - 1 := by
  have hlen := h.1.length_eq
  have hpos := h.1.free_pos
  simp only [RingBuffer.free, size]
  rcases h.1.write_cases with hw | hw
  · rw [if_pos (by omega)]; omega
  · rw [if_neg (by omega)]; omega

theorem Holds.i32_avail (h : r.Holds held free) : i32 r.avail = held.length := by
  have hlen := h.1.length_eq
  have hpos := h.1.free_pos
  have hsize := h.2
  rw [h.avail_eq, i32_eq_self (by omega) (by unfold size at hsize; omega)]

theorem Holds.i32_free (h : r.Holds held free) : i32 r.free = free.length - 1 := by
  have hlen := h.1.length_eq
  have hpos := h.1.free_pos
  have hsize := h.2
  rw [h.free_eq, i32_eq_self (by omega) (by unfold size at hsize; omega)]

/-- Reading takes from the front of what the ring holds. -/
theorem Holds.read (h : r.Holds held free) (hn : n ≤ held.length) :
    ∃ r', r.read n = some (held.take n, r') ∧ r'.size = r.size ∧
      r'.Holds (held.drop n) (free ++ held.take n) := by
  have hlen := h.1.length_eq
  have hpos := h.1.free_pos
  have hlt := h.1.read_lt
  have hsize := h.2
  unfold size at hsize
  have htake := h.1.take hn
  rw [List.rotate_eq_drop_append_take hlt.le] at htake
  have hs : ssize (r.pread + n) = ((r.pread + n : Nat) : Int) := by
    exact_mod_cast ssize_eq_self (n := r.pread + n) (by omega)
  refine ⟨{ r with pread := (r.pread + n) % r.size }, ?_, rfl, h.1.advance hn, h.2⟩
  simp only [RingBuffer.read, size, hs, Nat.cast_lt]
  by_cases hsplit : r.data.length < r.pread + n
  · have hsub : 0 < r.data.length - r.pread := by omega
    have hmod : (n - (r.data.length - r.pread)) % r.data.length = (r.pread + n) % r.data.length := by
      rw [show r.pread + n = n - (r.data.length - r.pread) + r.data.length by omega,
        Nat.add_mod_right]
    rw [List.take_append, List.take_of_length_le (by simp; omega)] at htake
    rw [List.take_take, Nat.min_eq_left (by simp; omega), List.length_drop] at htake
    simp only [if_pos hsplit, if_pos hsub]
    rw [if_pos (by omega), List.take_of_length_le (by simp), List.drop_zero, Nat.zero_add, hmod,
      htake]
  · rw [List.take_append_of_le_length (by simp; omega)] at htake
    simp only [if_neg hsplit, Nat.lt_irrefl, if_false, Nat.sub_zero]
    rw [if_pos (by omega), List.take_zero, List.nil_append, htake]

/-- Writing appends to what the ring holds. -/
theorem Holds.write (h : r.Holds held free) (hd : d.length < free.length) :
    ∃ r', r.write d = some r' ∧ r'.size = r.size ∧ r'.Holds (held ++ d) (free.drop d.length) := by
  have hlen := h.1.length_eq
  have hlt := h.1.write_lt
  have hsize := h.2
  unfold size at hsize
  have hs : ssize (r.pwrite + d.length) = ((r.pwrite + d.length : Nat) : Int) := by
    exact_mod_cast ssize_eq_self (n := r.pwrite + d.length) (by omega)
  simp only [RingBuffer.write, size, hs, Nat.cast_lt]
  by_cases hsplit : r.data.length < r.pwrite + d.length
  · have hsub : 0 < r.data.length - r.pwrite := by omega
    set split := r.data.length - r.pwrite with hdef
    have h₁ : r.pwrite + (d.take split).length = r.data.length := by simp; omega
    have h₂ : (d.drop split).length ≤ r.pwrite := by simp; omega
    have hput := rotate_put_put h₁ h₂
    rw [List.take_append_drop] at hput
    have hl : (put (put r.data r.pwrite (d.take split)) 0 (d.drop split)).length = r.data.length := by
      rw [length_put (by rw [length_put (by omega)]; simp; omega), length_put (by omega)]
    have hmod : (0 + (d.drop split).length) % r.data.length = (r.pwrite + d.length) % r.data.length := by
      rw [show r.pwrite + d.length = 0 + (d.drop split).length + r.data.length by simp; omega,
        Nat.add_mod_right]
    simp only [if_pos hsplit, if_pos hsub]
    rw [if_pos (by omega), hmod]
    exact ⟨_, rfl, hl, h.1.stored hl hput hd, by simpa [size, hl] using h.2⟩
  · have hfit : r.pwrite + d.length ≤ r.data.length := by omega
    have hput := rotate_put hfit
    have hl := length_put hfit
    simp only [if_neg hsplit, Nat.lt_irrefl, if_false, List.take_zero, put_nil, List.drop_zero]
    rw [if_pos (by omega)]
    exact ⟨_, rfl, hl, h.1.stored hl hput hd, by simpa [size, hl] using h.2⟩

end RingBuffer

/-! ## The queue in the ring -/

/-- The bytes of a queue in the ring. -/
def wire (q : List (List Byte)) : List Byte := q.flatMap fun p => intBytes p.length ++ p

theorem length_intBytes (x : Int) : (intBytes x).length = 4 := length_leBytes 4 _

theorem intOf_intBytes {n : Nat} (h : n < 2 ^ 31) : intOf (intBytes n) = n := by
  have hle : ofLe (leBytes 4 n) = n := ofLe_leBytes (h.trans (by omega))
  rw [intOf, intBytes, u32_natCast (h.trans (by omega)), hle, i32_eq_self (by omega) (by omega)]

@[simp] theorem wire_nil : wire [] = [] := rfl

theorem wire_cons (p : List Byte) (q : List (List Byte)) :
    wire (p :: q) = intBytes p.length ++ (p ++ wire q) := by
  simp [wire]

theorem wire_append_singleton (q : List (List Byte)) (p : List Byte) :
    wire (q ++ [p]) = wire q ++ intBytes p.length ++ p := by
  simp [wire]

theorem length_wire (q : List (List Byte)) : (wire q).length = used q := by
  induction q with
  | nil => rfl
  | cons p q ih =>
    rw [wire_cons, List.length_append, List.length_append, ih, length_intBytes]
    simp [used]
    omega

/-- The ring holds the queue. -/
structure Queued (cap : Nat) (r : RingBuffer) (q : List (List Byte)) : Prop where
  size : r.size = cap
  holds : ∃ free, r.Holds (wire q) free
  filled : ∀ p ∈ q, p ≠ []

/-- The steps the conversions to `int` do not hurt: a write of at least `2 ^ 31 - 4` bytes must
look larger than the free space. Packages that go away are copied. -/
def Careful (r : RingBuffer) : Op → Prop
  | .write buf => buf.length + 4 < 2 ^ 31 ∨ r.free < i32 (buf.length + 4)
  | .packageRead _ alloc => alloc = true
  | .read _ alloc => alloc = true
  | .wake _ _ alloc => alloc = true

instance instDecidableCareful (r : RingBuffer) : ∀ op, Decidable (Careful r op)
  | .write buf =>
    inferInstanceAs (Decidable (buf.length + 4 < 2 ^ 31 ∨ r.free < i32 (buf.length + 4)))
  | .packageRead _ alloc => inferInstanceAs (Decidable (alloc = true))
  | .read _ alloc => inferInstanceAs (Decidable (alloc = true))
  | .wake _ _ alloc => inferInstanceAs (Decidable (alloc = true))

theorem Queued.free_eq {cap : Nat} {r : RingBuffer} {q : List (List Byte)} {free : List Byte}
    (h : Queued cap r q) (hf : r.Holds (wire q) free) : free.length = cap - used q ∧ cap ≤ 2 ^ 31 := by
  have hlen := hf.1.length_eq
  have hsize := h.size
  have hmax := hf.2
  rw [length_wire] at hlen
  simp only [RingBuffer.size] at hsize hmax
  omega

/-- A write puts its package at the end of the queue, if it fits. -/
theorem packageWrite_queued {cap : Nat} {r : RingBuffer} {q : List (List Byte)} {buf : List Byte}
    (h : Queued cap r q) (hbuf : buf ≠ []) (hok : Careful r (.write buf)) :
    Queued cap (packageWrite r buf).1 (queueStep cap q (.write buf)).1 ∧
      (packageWrite r buf).2 = (queueStep cap q (.write buf)).2 := by
  obtain ⟨free, hf⟩ := h.holds
  obtain ⟨hfree, hcap⟩ := h.free_eq hf
  have hpos := hf.1.free_pos
  have hi := hf.i32_free
  have hok' : buf.length + 4 < 2 ^ 31 ∨ r.free < i32 (buf.length + 4) := hok
  rw [hf.free_eq] at hok'
  by_cases hfit : buf.length + 4 ≤ cap - 1 - used q
  · have hsmall : i32 (buf.length + 4) = buf.length + 4 := i32_eq_self (by omega) (by omega)
    have hlen : i32 buf.length = buf.length := i32_eq_self (by omega) (by omega)
    obtain ⟨r₁, hw₁, hs₁, hf₁⟩ := hf.write (d := intBytes buf.length)
      (by rw [length_intBytes]; omega)
    obtain ⟨r₂, hw₂, hs₂, hf₂⟩ := hf₁.write (d := buf)
      (by rw [List.length_drop, length_intBytes]; omega)
    have hstep : packageWrite r buf = (r₂, .accepted buf.length) := by
      rw [packageWrite, hi, hsmall, if_neg (by omega), hlen, hw₁, Option.bind_some, hw₂]
    rw [hstep, queueStep, if_pos hfit]
    refine ⟨⟨by rw [hs₂, hs₁, h.size], ⟨_, by rw [wire_append_singleton]; exact hf₂⟩, ?_⟩, rfl⟩
    intro p hp
    rcases List.mem_append.1 hp with hp | hp
    · exact h.filled p hp
    · obtain rfl := List.mem_singleton.1 hp
      exact hbuf
  · have hlarge : (free.length : Int) - 1 < i32 (buf.length + 4) := by
      rcases hok' with hlt | hlt
      · rw [i32_eq_self (by omega) (by omega)]
        omega
      · exact hlt
    rw [packageWrite, hi, if_pos hlarge, queueStep, if_neg hfit]
    exact ⟨h, rfl⟩

/-- The ring is empty, or begins with the length of the front package. -/
theorem packageRead_queued {cap : Nat} {r : RingBuffer} {q : List (List Byte)} (size : Int)
    (h : Queued cap r q) :
    Queued cap (packageRead r size true).1 (queueTake size (.got 0 []) q).1 ∧
      (packageRead r size true).2 = (queueTake size (.got 0 []) q).2 := by
  obtain ⟨free, hf⟩ := h.holds
  obtain ⟨-, hcap⟩ := h.free_eq hf
  have hlen := hf.1.length_eq
  have hpos := hf.1.free_pos
  have hsize := h.size
  simp only [RingBuffer.size] at hsize
  cases q with
  | nil =>
    obtain ⟨r', hr, hs, hf'⟩ := hf.read (Nat.zero_le _)
    have hskip : r.skip 0 true = some r' := by rw [RingBuffer.skip, if_pos rfl, hr]; rfl
    have hread : packageRead r size true = (r', .got 0 []) := by
      rw [packageRead, hf.i32_avail, wire_nil, if_neg (by simp), hskip]
    rw [List.drop_zero] at hf'
    rw [hread, queueTake]
    exact ⟨⟨hs.trans h.size, ⟨_, hf'⟩, h.filled⟩, rfl⟩
  | cons p q =>
    have hp : 0 < p.length := List.length_pos_of_ne_nil (h.filled p List.mem_cons_self)
    have hq : ∀ a ∈ q, a ≠ [] := fun a ha => h.filled a (List.mem_cons_of_mem _ ha)
    have havail := hf.i32_avail
    rw [wire_cons] at hf havail hlen
    obtain ⟨r₁, hr₁, hs₁, hf₁⟩ := hf.read (n := 4) (by simp [length_intBytes])
    rw [List.take_left' (length_intBytes _)] at hr₁
    rw [List.drop_left' (length_intBytes _)] at hf₁
    obtain ⟨r₂, hr₂, hs₂, hf₂⟩ := hf₁.read (n := p.length) (by simp)
    rw [List.take_left' rfl] at hr₂
    rw [List.drop_left' rfl] at hf₂
    have havail₁ := hf₁.i32_avail
    have hl₁ : (p ++ wire q).length = p.length + (wire q).length := List.length_append
    have hl : (intBytes p.length ++ (p ++ wire q)).length = 4 + (p.length + (wire q).length) := by
      rw [List.length_append, length_intBytes, hl₁]
    rw [hl] at havail hlen
    rw [hl₁] at havail₁
    have hsmall : p.length < 2 ^ 31 ∧ p.length < 2 ^ 64 := by omega
    have hhead : (4 : Int) < ((4 + (p.length + (wire q).length) : Nat) : Int) := by omega
    have hbody : ¬ ((p.length + (wire q).length : Nat) : Int) < p.length := by omega
    have hpos' : (0 : Int) < p.length := by omega
    have hint : intOf (intBytes p.length) = p.length := intOf_intBytes hsmall.1
    have hu64 : u64 p.length = p.length := u64_natCast hsmall.2
    have hq' : Queued cap r₂ q := ⟨by rw [hs₂, hs₁, h.size], ⟨_, hf₂⟩, hq⟩
    have hread : packageRead r size true = packageBody r₁ p.length size true := by
      rw [packageRead, havail, if_pos hhead, hr₁]
      exact congrArg (packageBody r₁ · size true) hint
    have hskip : r₁.skip (u64 p.length) true = some r₂ := by
      rw [RingBuffer.skip, if_pos rfl, hu64, hr₂]
      rfl
    rw [hread, packageBody, havail₁, if_neg hbody]
    by_cases hfit : (p.length : Int) ≤ size
    · rw [if_neg (not_lt.2 hfit), if_pos hpos', hu64, hr₂, queueTake, if_pos hfit]
      exact ⟨hq', rfl⟩
    · rw [if_pos (not_le.1 hfit), hskip, queueTake, if_neg hfit]
      exact ⟨hq', rfl⟩

theorem queueTake_of_ne {size : Int} {empty empty' : Ret} {q : List (List Byte)} (h : q ≠ []) :
    queueTake size empty q = queueTake size empty' q := by
  cases q with
  | nil => exact absurd rfl h
  | cons p q => rfl

/-- `AM_USERDATA_Read` sees the packages there are. -/
theorem Queued.avail_le {cap : Nat} {r : RingBuffer} {q : List (List Byte)} (h : Queued cap r q) :
    i32 r.avail ≤ 0 ↔ q = [] := by
  obtain ⟨free, hf⟩ := h.holds
  rw [hf.i32_avail, length_wire]
  cases q with
  | nil => simp [used]
  | cons p q =>
    have hpos : 0 < used (p :: q) := by simp [used]
    exact iff_of_false (by omega) (List.cons_ne_nil p q)

/-- A step on the ring is a step of the queue. -/
theorem step_queued {cap : Nat} {r : RingBuffer} {q : List (List Byte)} {op : Op}
    (h : Queued cap r q) (hbuf : ∀ buf, op = .write buf → buf ≠ []) (hok : Careful r op) :
    Queued cap (step r op).1 (queueStep cap q op).1 ∧ (step r op).2 = (queueStep cap q op).2 := by
  cases op with
  | write buf =>
    rw [step]
    exact packageWrite_queued h (hbuf buf rfl) hok
  | packageRead size alloc =>
    obtain rfl : alloc = true := hok
    rw [step, queueStep]
    exact packageRead_queued size h
  | read size alloc =>
    obtain rfl : alloc = true := hok
    by_cases hq : q = []
    · subst hq
      rw [step, if_pos (h.avail_le.2 rfl)]
      exact ⟨h, rfl⟩
    · rw [step, if_neg (mt h.avail_le.1 hq), queueStep, queueTake_of_ne hq]
      exact packageRead_queued size h
  | wake size timedOut alloc =>
    obtain rfl : alloc = true := hok
    cases timedOut with
    | true => exact ⟨h, rfl⟩
    | false =>
      by_cases hq : q = []
      · subst hq
        rw [step, if_pos (.inr (h.avail_le.2 rfl))]
        exact ⟨h, rfl⟩
      · have hno : ¬ (false = true ∨ i32 r.avail ≤ 0) := by simp [mt h.avail_le.1 hq]
        rw [step, if_neg hno, queueStep, if_neg (by simp), queueTake_of_ne hq]
        exact packageRead_queued size h

theorem queueTake_regular {size : Int} {empty : Ret} {q : List (List Byte)}
    (h : empty ≠ .mismatch ∧ empty ≠ .overrun) :
    (queueTake size empty q).2 ≠ .mismatch ∧ (queueTake size empty q).2 ≠ .overrun := by
  unfold queueTake
  split
  · exact h
  · split <;> simp

theorem queueStep_regular (cap : Nat) (q : List (List Byte)) (op : Op) :
    (queueStep cap q op).2 ≠ .mismatch ∧ (queueStep cap q op).2 ≠ .overrun := by
  cases op with
  | write buf =>
    rw [queueStep]
    split <;> simp
  | packageRead size alloc => exact queueTake_regular (by simp)
  | read size alloc => exact queueTake_regular (by simp)
  | wake size timedOut alloc =>
    rw [queueStep]
    split
    · simp
    · exact queueTake_regular (by simp)

theorem packageBody_ne_rejected (r : RingBuffer) (udCnt size : Int) (alloc : Bool) :
    (packageBody r udCnt size alloc).2 ≠ .rejected := by
  rw [packageBody]
  split
  · split <;> simp
  · split
    · split <;> simp
    · split
      · split <;> simp
      · simp

theorem packageRead_ne_rejected (r : RingBuffer) (size : Int) (alloc : Bool) :
    (packageRead r size alloc).2 ≠ .rejected := by
  rw [packageRead]
  split
  · split
    · simp
    · exact packageBody_ne_rejected _ _ _ _
  · split <;> simp

/-- A write that is rejected changes nothing. -/
theorem step_rejected (r : RingBuffer) (op : Op) (h : (step r op).2 = .rejected) :
    (step r op).1 = r := by
  cases op with
  | write buf =>
    rw [step, packageWrite] at h ⊢
    split
    · rfl
    · rename_i hnot
      rw [if_neg hnot] at h
      split at h <;> simp at h
  | packageRead size alloc =>
    rw [step] at h
    exact absurd h (packageRead_ne_rejected _ _ _)
  | read size alloc =>
    rw [step] at h
    split at h
    · simp at h
    · exact absurd h (packageRead_ne_rejected _ _ _)
  | wake size timedOut alloc =>
    rw [step] at h
    split at h
    · simp at h
    · exact absurd h (packageRead_ne_rejected _ _ _)

theorem queued_init {data : List Byte} (h : data ≠ []) (hmax : data.length ≤ 2 ^ 31) :
    Queued data.length (.init data) [] where
  size := rfl
  holds := ⟨data, Lib.Holds.init h, hmax⟩
  filled := fun _ hp => absurd hp List.not_mem_nil

theorem run_queueStep_regular (cap : Nat) (q : List (List Byte)) (ops : List Op) :
    ∀ o ∈ (run (queueStep cap) q ops).2, o ≠ .mismatch ∧ o ≠ .overrun := by
  have hstep : ∀ q op, True → True → True ∧ ((queueStep cap q op).2 ≠ .mismatch ∧
      (queueStep cap q op).2 ≠ .overrun) :=
    fun q op _ _ => ⟨trivial, queueStep_regular cap q op⟩
  exact run_out hstep trivial (each_of_forall (fun _ _ => trivial) q ops)

/-- A run of careful steps goes through the queue, first in, first out. -/
theorem fifo_of_careful (data : List Byte) (ops : List Op) (hcap : 5 ≤ data.length)
    (hmax : data.length ≤ 2 ^ 31) (hbuf : ∀ buf, Op.write buf ∈ ops → buf ≠ [])
    (hok : Each Careful step (.init data) ops) : Fifo data ops := by
  have hne : data ≠ [] := by
    intro hnil
    simp [hnil] at hcap
  have hall := hok.and_forall_mem (p := fun op => ∀ buf, op = .write buf → buf ≠ [])
    fun op hop buf heq => hbuf buf (heq ▸ hop)
  have hstep : ∀ r q op, Queued data.length r q →
      (Careful r op ∧ ∀ buf, op = .write buf → buf ≠ []) →
      Queued data.length (step r op).1 (queueStep data.length q op).1 ∧
        (step r op).2 = (queueStep data.length q op).2 :=
    fun r q op h hop => step_queued h hop.2 hop.1
  have hsim := (run_sim hstep (queued_init hne hmax) hall).2
  have hreg := run_queueStep_regular data.length [] ops
  rw [← hsim] at hreg
  exact ⟨hsim, ⟨fun hm => (hreg _ hm).1 rfl, fun hm => (hreg _ hm).2 rfl⟩,
    each_of_forall step_rejected _ _⟩

/-- Two packages through a ring of eleven bytes, the second one over its end. -/
def wrapOps : List Op :=
  [.write [1, 2], .read 8 true, .write [3, 4, 5], .write [6], .packageRead 2 true, .read 8 true,
    .wake 8 true true]

theorem fifo_wrapOps : Fifo (List.replicate 11 0) wrapOps :=
  fifo_of_careful _ _ (by decide) (by decide) (by simp [wrapOps]) (by decide +kernel)

/-- The body of a package that was too large stays in the ring when `malloc` fails, and its bytes are
read as a package that nobody has written. -/
theorem not_fifo_mallocFails :
    ¬ Fifo (List.replicate 5120 0)
      [.write [1, 0, 0, 0, 7], .packageRead 2 false, .packageRead 8 true] := by
  intro h
  have hruns : (run step (.init (List.replicate 5120 0))
      [.write [1, 0, 0, 0, 7], .packageRead 2 false, .packageRead 8 true]).2 =
        [.accepted 5, .got 0 [], .got 1 [7]] := by decide +kernel
  have hqueue : (run (queueStep (List.replicate 5120 (0 : Byte)).length) []
      [.write [1, 0, 0, 0, 7], .packageRead 2 false, .packageRead 8 true]).2 =
        [.accepted 5, .got 0 [], .got 0 []] := by decide +kernel
  have hans := h.answers
  rw [hruns, hqueue] at hans
  exact absurd hans (by decide)

/-- A write whose size is negative as an `int` does not find the ring too small. -/
theorem packageWrite_ne_rejected {r : RingBuffer} {buf : List Byte} (h : i32 (buf.length + 4) ≤ i32 r.free) :
    (packageWrite r buf).2 ≠ .rejected := by
  rw [packageWrite, if_neg (by omega)]
  split <;> simp

/-- Every ring accepts a write of `2 ^ 31` bytes. -/
theorem not_fifo_hugeWrite {data buf : List Byte} (hne : data ≠ []) (hmax : data.length ≤ 2 ^ 31)
    (hbuf : buf.length = 2 ^ 31) : ¬ Fifo data [.write buf] := by
  intro h
  have hf : (RingBuffer.init data).Holds [] data := ⟨Lib.Holds.init hne, hmax⟩
  have hwrite : (packageWrite (.init data) buf).2 ≠ .rejected := by
    have hsize : i32 ((2 ^ 31 : Nat) + 4) < 0 := by decide
    apply packageWrite_ne_rejected
    rw [hf.i32_free, hbuf]
    omega
  have hqueue : (queueStep data.length [] (.write buf)).2 = .rejected := by
    rw [queueStep, hbuf, if_neg (by omega)]
  have hans := h.answers
  rw [run_cons, run_nil, run_cons, run_nil, step] at hans
  exact hwrite ((List.cons.inj hans).1.trans hqueue)

end VendorAmlogic.Userdata
