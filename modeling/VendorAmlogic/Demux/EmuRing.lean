import VendorAmlogic.Lib.Run
import VendorAmlogic.Demux.Emu

/-!
# The ring of a filter

One enabled filter of the emulated demultiplexer: what `parse_payload`
delivers to it, `emu_read` and `emu_set_buf_size`. `Fifo` is the queue the ring
stands for. A section filter's ring is that queue as long as it is not resized
around its end; PES data is copied into the ring, but never counted.
-/

namespace VendorAmlogic.Demux.Emu

open VendorAmlogic.Lib VendorAmlogic.Demux

/-! ## The source -/

/-- `emu_set_buf_size`. `grown` is the memory `realloc` returns, of which the first bytes are those
of the old buffer; `none` is its failure. -/
def emuSetBufSize (f : Filter) (size : Nat) (grown : Option Mem) : Filter :=
  if f.bufSize ≠ size then
    match grown with
    | none => f
    | some m =>
      { f with buf := fun j => if j < min f.bufSize size then f.buf j else m j, bufSize := size }
  else f

/-- What happens to the filter. -/
inductive RingOp where
  | deliver (d : List Byte)
  | read (size : Nat)
  | resize (size : Nat) (grown : Option Mem)

/-- A channel of the filter's PID that has collected the PES data `d`. -/
def pesChannel (f : Filter) (d : List Byte) : Channel :=
  ⟨f.pid.toNat, fun k => d.getD k 0, d.length, 0, .data, .pes, 0, 0⟩

def ringStep (f : Filter) : RingOp → Filter × Option (List Byte)
  | .deliver d =>
    match f.type with
    | .sec => ((putSec f d).getD f, none)
    | .pes => ((putPes [f] (pesChannel f d)).headD f, none)
  | .read size => emuRead f size
  | .resize size grown => (emuSetBufSize f size grown, none)

/-! ## The queue -/

/-- Deliveries not yet read, and the bytes there is room for. -/
structure Fifo where
  cap : Nat
  queue : List (List Byte)

/-- A section filter returns a section at a time, a PES filter as many bytes as are asked for. -/
def Fifo.step (type : ChannelType) (q : Fifo) : RingOp → Fifo × Option (List Byte)
  | .deliver d =>
    (if q.queue.flatten.length + d.length ≤ q.cap then { q with queue := q.queue ++ [d] } else q, none)
  | .read size =>
    match type, q.queue with
    | _, [] => (q, none)
    | .sec, s :: queue => ({ q with queue := queue }, some (s.take size))
    | .pes, queue =>
      ({ q with queue := if queue.flatten.drop size = [] then [] else [queue.flatten.drop size] },
        some (queue.flatten.take size))
  | .resize size grown => ({ q with cap := if grown.isSome then size else q.cap }, none)

/-- Whole sections for a section filter, PES bytes for a PES filter, and sizes that are positive and
not below the bytes held. -/
def Admitted (f : Filter) : RingOp → Prop
  | .deliver d => (f.type = .sec → IsWhole d) ∧ (f.type = .pes → d ≠ [])
  | .read _ => True
  | .resize size _ => 0 < size ∧ f.bytes ≤ size

/-- No PES data that there is room for, and no new size while the data in the ring goes around its
end or beyond the new one. -/
def KeepsData (f : Filter) : RingOp → Prop
  | .deliver d => f.type = .pes → f.bufSize < f.bytes + d.length
  | .read _ => True
  | .resize size grown => size ≠ f.bufSize → grown.isSome →
      f.start < size ∧ f.start + f.bytes ≤ f.bufSize ∧ f.start + f.bytes ≤ size

def RingOk (f : Filter) : Prop := f.start < f.bufSize ∧ f.bytes ≤ f.bufSize

/-- The reads return what the queue does, and the ring stays in order. -/
def IsFifo (f : Filter) (ops : List RingOp) : Prop :=
  (run ringStep f ops).2 = (run (Fifo.step f.type) ⟨f.bufSize, []⟩ ops).2 ∧
    Always RingOk ringStep f ops

/-! ## What the ring holds -/

structure RingHolds (f : Filter) (held : List Byte) : Prop where
  start_lt : f.start < f.bufSize
  bytes : f.bytes = held.length
  bytes_le : f.bytes ≤ f.bufSize
  ring : ringGet f.bufSize f.buf f.start f.bytes = held

section
variable {f : Filter} {held d : List Byte}

theorem RingHolds.putSec (h : RingHolds f held) (hd : f.bytes + d.length ≤ f.bufSize) :
    Emu.putSec f d =
        some { f with buf := ringPut f.bufSize f.buf f.tail d, bytes := f.bytes + d.length } ∧
      RingHolds { f with buf := ringPut f.bufSize f.buf f.tail d, bytes := f.bytes + d.length }
        (held ++ d) := by
  refine ⟨if_neg (by omega), h.start_lt, ?_, hd, ?_⟩
  · simp [h.bytes]
  · dsimp only
    rw [Filter.tail, ringGet_put h.start_lt hd, h.ring]

theorem RingHolds.putSec_full (h : RingHolds f held) (hd : f.bufSize < f.bytes + d.length) :
    Emu.putSec f d = none := by
  have := h.bytes_le
  exact if_pos (by omega)

theorem RingHolds.emuRead_nil (h : RingHolds f []) (size : Nat) : emuRead f size = (f, none) := by
  unfold emuRead
  rw [if_neg (by simp [h.bytes])]

/-- `emu_read` takes the oldest section, and the part of it that there is room for. -/
theorem RingHolds.emuRead {s rest : List Byte} (h : RingHolds f (s ++ rest)) (hs : IsWhole s)
    (ht : f.type = .sec) (size : Nat) :
    Emu.emuRead f size = ({ f with
        start := (f.start + s.length) % f.bufSize, bytes := f.bytes - s.length }, some (s.take size)) ∧
      RingHolds { f with start := (f.start + s.length) % f.bufSize, bytes := f.bytes - s.length }
        rest := by
  have h3 := hs.header
  have hbytes : f.bytes = s.length + rest.length := by simp [h.bytes]
  have hle := h.bytes_le
  have hget : ∀ k, k < 3 → f.buf ((f.start + k) % f.bufSize) = s.getD k 0 := by
    intro k hk
    have hk' := getD_ringGet (m := f.buf) h.start_lt hle (i := k) (by omega)
    rw [← hk', h.ring, List.getD_append s rest 0 k (by omega)]
  have hsec : secLen (f.buf ((f.start + 1) % f.bufSize))
      (f.buf (((f.start + 1) % f.bufSize + 1) % f.bufSize)) = s.length := by
    rw [Nat.mod_add_mod, Nat.add_assoc, hget 1 (by omega), hget 2 (by omega)]
    exact hs.length_eq.symm
  refine ⟨?_, ?_, ?_, ?_, ?_⟩
  · unfold Emu.emuRead
    rw [if_pos (by omega)]
    simp only [ht, hsec]
    rw [ringGet_take h.start_lt hle (by omega), h.ring, List.take_append_of_le_length (by omega)]
    congr 2
    rw [Nat.min_comm, ← List.take_take, List.take_length]
  · exact Nat.mod_lt _ (Nat.lt_of_le_of_lt (Nat.zero_le _) h.start_lt)
  · change f.bytes - s.length = _
    omega
  · exact Nat.le_trans (Nat.sub_le _ _) hle
  · change ringGet f.bufSize f.buf ((f.start + s.length) % f.bufSize) (f.bytes - s.length) = _
    rw [ringGet_drop h.start_lt hle (by omega), h.ring, List.drop_left]

/-- A new size for data that lies in one piece below it. -/
theorem RingHolds.resize (h : RingHolds f held) {size : Nat} {m : Mem} (hs : f.start < size)
    (hold : f.start + f.bytes ≤ f.bufSize) (hnew : f.start + f.bytes ≤ size) :
    RingHolds { f with
      buf := fun j => if j < min f.bufSize size then f.buf j else m j, bufSize := size } held where
  start_lt := hs
  bytes := h.bytes
  bytes_le := by
    change f.bytes ≤ size
    omega
  ring := by
    have hring := h.ring
    unfold ringGet at hring ⊢
    dsimp only at hring ⊢
    rw [if_pos (by omega)] at hring ⊢
    rw [← hring]
    refine Mem.read_congr fun i hi => ?_
    rw [if_pos (by omega)]

end

/-! ## Step by step -/

/-- The ring stands for the queue. -/
structure RingIs (type : ChannelType) (f : Filter) (q : Fifo) : Prop where
  enable : f.enable = true
  type_eq : f.type = type
  cap : q.cap = f.bufSize
  holds : RingHolds f q.queue.flatten
  sections : type = .sec → ∀ s ∈ q.queue, IsWhole s
  pes : type = .pes → q.queue = []

section
variable {type : ChannelType} {f : Filter} {q : Fifo}

theorem RingIs.deliver_sec (h : RingIs .sec f q) {d : List Byte} (hd : IsWhole d) :
    RingIs .sec (ringStep f (.deliver d)).1 (q.step .sec (.deliver d)).1 := by
  have hlen : q.queue.flatten.length + d.length ≤ q.cap ↔ f.bytes + d.length ≤ f.bufSize := by
    rw [h.holds.bytes, h.cap]
  simp only [ringStep, h.type_eq, Fifo.step, hlen]
  by_cases hfit : f.bytes + d.length ≤ f.bufSize
  · obtain ⟨hput, hholds⟩ := h.holds.putSec hfit
    rw [hput, Option.getD_some, if_pos hfit]
    refine ⟨h.enable, h.type_eq, h.cap, ?_, fun ht s hs => ?_, fun ht => nomatch ht⟩
    · simpa using hholds
    · rcases List.mem_append.1 hs with hs | hs
      · exact h.sections ht s hs
      · exact List.mem_singleton.1 hs ▸ hd
  · rw [h.holds.putSec_full (by omega), Option.getD_none, if_neg hfit]
    exact h

/-- PES data that there is no room for. -/
theorem RingIs.deliver_pes (h : RingIs .pes f q) {d : List Byte} (hd : f.bufSize < f.bytes + d.length) :
    RingIs .pes (ringStep f (.deliver d)).1 (q.step .pes (.deliver d)).1 := by
  have hq : q.queue = [] := h.pes rfl
  have hholds := h.holds
  rw [hq, List.flatten_nil] at hholds
  have hfound : List.findIdx? (fun g : Filter => g.enable && (g.pid.toNat == (pesChannel f d).pid) &&
      (g.type == (pesChannel f d).type)) [f] = some 0 := by
    simp [pesChannel, h.enable, h.type_eq]
  have hlen : ¬ q.queue.flatten.length + d.length ≤ q.cap := by
    rw [hq, h.cap, List.flatten_nil, ← hholds.bytes]
    omega
  simp only [ringStep, h.type_eq, putPes, hfound, Fifo.step, if_neg hlen]
  refine ⟨h.enable, h.type_eq, h.cap, ?_, fun ht => (nomatch ht), h.pes⟩
  rw [hq, List.flatten_nil]
  refine ⟨hholds.start_lt, hholds.bytes, hholds.bytes_le, ?_⟩
  change ringGet f.bufSize _ f.start f.bytes = []
  rw [hholds.bytes, List.length_nil, ringGet_zero]

theorem RingIs.read (h : RingIs type f q) (size : Nat) :
    RingIs type (ringStep f (.read size)).1 (q.step type (.read size)).1 ∧
      (ringStep f (.read size)).2 = (q.step type (.read size)).2 := by
  cases hq : q.queue with
  | nil =>
    have hholds := h.holds
    rw [hq, List.flatten_nil] at hholds
    simp only [ringStep, hholds.emuRead_nil, Fifo.step, hq]
    exact ⟨h, trivial⟩
  | cons s queue =>
    cases type with
    | pes => exact absurd (h.pes rfl) (by simp [hq])
    | sec =>
      have hholds := h.holds
      rw [hq, List.flatten_cons] at hholds
      have hs := h.sections rfl
      rw [hq] at hs
      obtain ⟨hread, hrest⟩ := hholds.emuRead (hs s List.mem_cons_self) h.type_eq size
      simp only [ringStep, hread, Fifo.step, hq]
      exact ⟨⟨h.enable, h.type_eq, h.cap, hrest, fun _ x hx => hs x (List.mem_cons_of_mem _ hx),
        fun ht => nomatch ht⟩, trivial⟩

theorem RingIs.resize (h : RingIs type f q) {size : Nat} {grown : Option Mem}
    (hk : KeepsData f (.resize size grown)) :
    RingIs type (ringStep f (.resize size grown)).1 (q.step type (.resize size grown)).1 := by
  simp only [ringStep, emuSetBufSize, Fifo.step]
  by_cases hsize : f.bufSize = size
  · rw [if_neg (not_not.2 hsize)]
    have hcap : (if grown.isSome = true then size else q.cap) = q.cap := by
      rw [h.cap, hsize, ite_self]
    rw [hcap]
    exact h
  · rw [if_pos hsize]
    cases grown with
    | none => exact h
    | some m =>
      obtain ⟨h1, h2, h3⟩ := hk (Ne.symm hsize) rfl
      exact ⟨h.enable, h.type_eq, rfl, h.holds.resize h1 h2 h3, h.sections, h.pes⟩

/-- **One step**: the ring goes on standing for the queue, and a read returns the same. -/
theorem RingIs.step (h : RingIs type f q) {op : RingOp} (ha : Admitted f op) (hk : KeepsData f op) :
    RingIs type (ringStep f op).1 (q.step type op).1 ∧ (ringStep f op).2 = (q.step type op).2 := by
  cases op with
  | read size => exact h.read size
  | resize size grown => exact ⟨h.resize hk, rfl⟩
  | deliver d =>
    have htype := h.type_eq
    cases type with
    | sec => exact ⟨h.deliver_sec (ha.1 htype), by simp [ringStep, htype, Fifo.step]⟩
    | pes => exact ⟨h.deliver_pes (hk htype), by simp [ringStep, htype, Fifo.step]⟩

end

/-! ## Runs -/

/-- **The ring of an enabled filter is a queue** in every run in which no PES data finds room and no
new size breaks the data in two. -/
theorem isFifo_of_keepsData (f : Filter) (ops : List RingOp) (he : f.enable = true)
    (h0 : f.bytes = 0) (hs : f.start < f.bufSize) (ha : Each Admitted ringStep f ops)
    (hk : Each KeepsData ringStep f ops) : IsFifo f ops := by
  have hinit : RingIs f.type f ⟨f.bufSize, []⟩ := by
    refine ⟨he, rfl, rfl, ⟨hs, h0, by omega, ?_⟩, by simp, fun _ => rfl⟩
    rw [h0, ringGet_zero]
    rfl
  have hboth := ha.and hk
  constructor
  · exact (run_sim (fun _ _ _ hr hok => hr.step hok.1 hok.2) hinit hboth).2
  · have hstep : ∀ g op, (∃ q, RingIs f.type g q) → Admitted g op ∧ KeepsData g op →
        ∃ q, RingIs f.type (ringStep g op).1 q := by
      rintro g op ⟨q, hq⟩ hok
      exact ⟨_, (hq.step hok.1 hok.2).1⟩
    have hok : ∀ g, (∃ q, RingIs f.type g q) → RingOk g := by
      rintro g ⟨q, hq⟩
      exact ⟨hq.holds.start_lt, hq.holds.bytes_le⟩
    exact always_inv hstep hok ⟨_, hinit⟩ hboth

/-- A section filter with room for 8 bytes. -/
def smallFilter : Filter := { emuAllocFilter (fun _ => 0) with bufSize := 8, start := 6, enable := true }

/-- Sections that go around the end of the ring, a read with a small buffer, a delivery without
room, and a new size once the data is in one piece. -/
def wrappingOps : List RingOp :=
  [.deliver [0x42, 0, 1, 7], .deliver [0x43, 0, 0], .deliver [0x44, 0, 0], .read 2, .resize 5 (some fun _ => 1),
    .read 100, .read 100]

theorem isFifo_wrappingOps : IsFifo smallFilter wrappingOps :=
  isFifo_of_keepsData smallFilter wrappingOps rfl rfl (by decide)
    ⟨⟨fun _ => ⟨by decide, by decide⟩, fun h => (nomatch h)⟩,
      ⟨fun _ => ⟨by decide, by decide⟩, fun h => (nomatch h)⟩,
      ⟨fun _ => ⟨by decide, by decide⟩, fun h => (nomatch h)⟩, trivial, ⟨by decide, by decide⟩, trivial,
      trivial, trivial⟩
    ⟨fun h => (nomatch h), fun h => (nomatch h), fun h => (nomatch h), trivial, fun _ _ => by decide, trivial,
      trivial, trivial⟩

/-- PES data is not returned. -/
theorem isFifo_pesLost :
    ¬ ∀ (f : Filter) (ops : List RingOp), f.enable = true → f.bytes = 0 → f.start < f.bufSize →
      Each Admitted ringStep f ops → IsFifo f ops := by
  intro h
  have hfifo := h { smallFilter with type := .pes } [.deliver [1, 2, 3], .read 10] rfl rfl (by decide)
    ⟨⟨fun h => (nomatch h), fun _ => List.cons_ne_nil _ _⟩, trivial, trivial⟩
  exact absurd hfifo.1 (by decide)

end VendorAmlogic.Demux.Emu
