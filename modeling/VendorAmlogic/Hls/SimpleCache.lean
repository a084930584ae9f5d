import VendorAmlogic.Lib.Bytes
import VendorAmlogic.Lib.Ring
import VendorAmlogic.Lib.Run

/-!
# The cache of a media item

`hls_fifo.c` and `hls_simple_cache.c`: a ring of bytes with pointers and 32-bit
counters, and the cache over it that can be turned back to a position. Over it
the stream that was written with a position of its own, which is what the cache
is for as long as no more is written than it holds.
-/

namespace VendorAmlogic.Hls

open VendorAmlogic.Lib

/-! ## The ring -/

/-- `HLSFifoBuffer`; the pointers are offsets from `buffer`, and `end` is behind its last byte. -/
structure HlsFifo where
  buffer : List Byte
  rptr : Nat
  wptr : Nat
  rndx : Nat
  wndx : Nat

namespace HlsFifo

/-- `hls_fifo_alloc`, of a buffer with what is in it. -/
def alloc (buffer : List Byte) : HlsFifo := ⟨buffer, 0, 0, 0, 0⟩

/-- `hls_fifo_size`. -/
def size (f : HlsFifo) : Int := i32 (u32 ((f.wndx : Int) - f.rndx))

/-- `hls_fifo_space`. -/
def space (f : HlsFifo) : Int := i32 (f.buffer.length - f.size)

/-- `hls_fifo_drain`. -/
def drain (f : HlsFifo) (size : Nat) : HlsFifo :=
  let rptr := f.rptr + size
  { f with
    rptr := if f.buffer.length ≤ rptr then rptr - f.buffer.length else rptr
    rndx := u32 (f.rndx + size) }

/-- `hls_fifo_revert`. -/
def revert (f : HlsFifo) : HlsFifo := { f with rptr := 0, rndx := 0 }

/-- `hls_fifo_generic_write` of all of `src`; the rounds are those of its loop. -/
def genericWrite : Nat → HlsFifo → List Byte → Option HlsFifo
  | 0, _, _ => none
  | rounds + 1, f, src =>
    let len := min (f.buffer.length - f.wptr) src.length
    let wptr := f.wptr + len
    let f := { f with
      buffer := put f.buffer f.wptr (src.take len)
      wptr := if f.buffer.length ≤ wptr then 0 else wptr
      wndx := u32 (f.wndx + len) }
    if src.drop len = [] then some f else genericWrite rounds f (src.drop len)

/-- `hls_fifo_generic_read`; a copy of a negative length has no meaning. -/
def genericRead : Nat → HlsFifo → Int → Option (HlsFifo × List Byte)
  | 0, _, _ => none
  | rounds + 1, f, bufSize =>
    let len := min ((f.buffer.length : Int) - f.rptr) bufSize
    if len < 0 then none
    else
      let bytes := (f.buffer.drop f.rptr).take len.toNat
      let f := f.drain len.toNat
      if 0 < bufSize - len then
        (genericRead rounds f (bufSize - len)).map fun (f, rest) => (f, bytes ++ rest)
      else some (f, bytes)

end HlsFifo

/-! ## The cache -/

/-- `hls_simple_cache_write`. -/
def simpleCacheWrite (f : HlsFifo) (buf : List Byte) : Option (HlsFifo × Int) :=
  (f.genericWrite (buf.length + 1) buf).map (·, (buf.length : Int))

/-- `hls_simple_cache_read`: the bytes it puts into the buffer, as many as it returns. -/
def simpleCacheRead (f : HlsFifo) (size : Int) : Option (HlsFifo × List Byte) :=
  let rsize := min f.size size
  f.genericRead (rsize.toNat + 1) rsize

/-- `hls_simple_cache_move_to_pos`. -/
def simpleCacheMoveToPos (f : HlsFifo) (pos : Int) : HlsFifo × Int :=
  let f := f.revert
  (if 0 < pos then f.drain pos.toNat else f, 0)

/-- `hls_simple_cache_revert`. -/
def simpleCacheRevert (f : HlsFifo) : HlsFifo × Int := (f.revert, 0)

/-- `hls_simple_cache_get_data_size`. -/
def simpleCacheGetDataSize (f : HlsFifo) : Int := f.size

/-- `hls_simple_cache_get_free_space`. -/
def simpleCacheGetFreeSpace (f : HlsFifo) : Int := f.space

inductive CacheOp where
  | write (buf : List Byte)
  | read (size : Int)
  | moveToPos (pos : Int)
  | revert

/-- How much it writes. -/
def CacheOp.len : CacheOp → Nat
  | .write buf => buf.length
  | _ => 0

/-- The cache after an operation, and what was read. -/
def HlsFifo.perform (f : HlsFifo) : CacheOp → Option (HlsFifo × List Byte)
  | .write buf => (simpleCacheWrite f buf).map fun (f, _) => (f, [])
  | .read size => simpleCacheRead f size
  | .moveToPos pos => some ((simpleCacheMoveToPos f pos).1, [])
  | .revert => some ((simpleCacheRevert f).1, [])

/-- Nothing is left of a cache after an operation without a meaning. -/
def cacheStep (f : Option HlsFifo) (op : CacheOp) : Option HlsFifo × List Byte :=
  match f.bind (·.perform op) with
  | none => (none, [])
  | some (f, bytes) => (some f, bytes)

/-! ## The stream -/

/-- What was written, and how far it was read. -/
structure Stream where
  written : List Byte
  pos : Nat

def Stream.empty : Stream := ⟨[], 0⟩

/-- What an operation is for. -/
def Stream.step (t : Stream) : CacheOp → Stream × List Byte
  | .write buf => ({ t with written := t.written ++ buf }, [])
  | .read size =>
    let bytes := (t.written.drop t.pos).take size.toNat
    ({ t with pos := t.pos + bytes.length }, bytes)
  | .moveToPos pos => ({ t with pos := pos.toNat }, [])
  | .revert => ({ t with pos := 0 }, [])

/-- The operation has a meaning, what it reads is of the stream, and the sizes after it add up. -/
def CacheRight (cap : Nat) (st : Option HlsFifo × Stream) (op : CacheOp) : Prop :=
  ∃ r ∈ st.1.bind (·.perform op), r.2 = (st.2.step op).2 ∧
    simpleCacheGetDataSize r.1 + simpleCacheGetFreeSpace r.1 = cap

instance (cap : Nat) (st : Option HlsFifo × Stream) (op : CacheOp) :
    Decidable (CacheRight cap st op) :=
  inferInstanceAs (Decidable (∃ r ∈ _, _))

/-- A read asks for no negative number, at a position that has been written up to, and a
position leaves a free space that an int holds. -/
def Stream.Allowed (cap : Nat) (t : Stream) : CacheOp → Prop
  | .read size => 0 ≤ size ∧ t.pos ≤ t.written.length
  | .moveToPos pos => cap + pos.toNat < t.written.length + 2 ^ 31
  | _ => True

/-- The write fits, and a position is an int. -/
def Stream.Fits (cap : Nat) (t : Stream) (op : CacheOp) : Prop :=
  t.written.length + op.len ≤ cap ∧ ∀ pos, op = .moveToPos pos → pos < 2 ^ 31

/-! ## The ring against the stream -/

/-- The ring of `cap` bytes has the stream. -/
structure Coupled (cap : Nat) (f : HlsFifo) (t : Stream) : Prop where
  pos : 0 < cap
  len : f.buffer.length = cap
  fits : t.written.length ≤ cap
  taken : f.buffer.take t.written.length = t.written
  write : f.wptr = if cap ≤ t.written.length then 0 else t.written.length
  read : f.rptr = if cap ≤ t.pos then t.pos - cap else t.pos
  wndx : f.wndx = t.written.length
  rndx : f.rndx = t.pos
  space : cap + t.pos < t.written.length + 2 ^ 31

section Ring

variable {cap : Nat} {f : HlsFifo} {t : Stream}

theorem Coupled.alloc {buffer : List Byte} (h : buffer ≠ []) (hcap : buffer.length < 2 ^ 31) :
    Coupled buffer.length (.alloc buffer) .empty where
  pos := List.length_pos_of_ne_nil h
  len := rfl
  fits := Nat.zero_le _
  taken := rfl
  write := by simp [Stream.empty, HlsFifo.alloc, h]
  read := by simp [Stream.empty, HlsFifo.alloc]
  wndx := rfl
  rndx := rfl
  space := by simpa [Stream.empty] using hcap

/-- The counters give the size, which is negative at a position behind what was written. -/
theorem size_eq {w p : Nat} (hw : f.wndx = w) (hp : f.rndx = p) (hwlt : w < 2 ^ 31)
    (hplt : p < 2 ^ 31) : f.size = (w : Int) - p := by
  unfold HlsFifo.size
  rw [hw, hp]
  exact i32_u32 (by omega) (by omega)

/-- The sizes add up as long as the free space is an int. -/
theorem sizes_iff {w p : Nat} (hlen : f.buffer.length = cap) (hcap : cap < 2 ^ 31)
    (hw : f.wndx = w) (hfits : w ≤ cap) (hp : f.rndx = p) (hplt : p < 2 ^ 31) :
    simpleCacheGetDataSize f + simpleCacheGetFreeSpace f = cap ↔ cap + p < w + 2 ^ 31 := by
  have hsize : f.size = (w : Int) - p := size_eq hw hp (by omega) hplt
  unfold simpleCacheGetDataSize simpleCacheGetFreeSpace HlsFifo.space
  rw [hlen, hsize, i32, Int.bmod_def]
  omega

theorem Coupled.sizes (h : Coupled cap f t) (hcap : cap < 2 ^ 31) :
    simpleCacheGetDataSize f + simpleCacheGetFreeSpace f = cap := by
  have hfits := h.fits
  have hspace := h.space
  exact (sizes_iff h.len hcap h.wndx hfits h.rndx (by omega)).2 hspace

/-- Nothing to write, or room behind what was written. -/
theorem Coupled.wptr_eq (h : Coupled cap f t) {buf : List Byte}
    (hfit : t.written.length + buf.length ≤ cap) : buf = [] ∨ f.wptr = t.written.length := by
  cases buf with
  | nil => exact .inl rfl
  | cons b bs =>
    rw [List.length_cons] at hfit
    exact .inr (by rw [h.write, if_neg (by omega)])

/-- A write goes behind what was written, in one round. -/
theorem Coupled.write_spec (h : Coupled cap f t) (hcap : cap < 2 ^ 31) {buf : List Byte}
    (hfit : t.written.length + buf.length ≤ cap) :
    ∃ f', f.genericWrite (buf.length + 1) buf = some f' ∧
      Coupled cap f' { t with written := t.written ++ buf } := by
  have hlen := h.len
  have hpos := h.pos
  have hspace := h.space
  have hput : f.wptr + buf.length ≤ f.buffer.length := by
    rw [h.write, hlen]
    split <;> omega
  have hmin : min (f.buffer.length - f.wptr) buf.length = buf.length := by omega
  have hwritten : (t.written ++ buf).length = t.written.length + buf.length := List.length_append
  rw [HlsFifo.genericWrite]
  simp only [hmin, List.drop_length, List.take_length, if_true]
  refine ⟨_, rfl, h.pos, (length_put hput).trans hlen, ?_, ?_, ?_, h.read, ?_, h.rndx, ?_⟩
  · exact hwritten ▸ hfit
  · dsimp only
    rcases h.wptr_eq hfit with rfl | hwptr
    · simpa using h.taken
    · rw [hwritten, hwptr, take_put (by omega), h.taken]
  · dsimp only
    rw [hlen, hwritten]
    rcases h.wptr_eq hfit with rfl | hwptr
    · have hlt : f.wptr < cap := by
        rw [h.write]
        split <;> omega
      rw [List.length_nil, Nat.add_zero, Nat.add_zero, ← h.write, if_neg (by omega)]
    · rw [hwptr]
  · dsimp only
    rw [hwritten, h.wndx, ← Nat.cast_add, u32_natCast (by omega)]
  · dsimp only
    omega

/-- The ring is read at the position, in one round. -/
theorem Coupled.read_spec (h : Coupled cap f t) (hcap : cap < 2 ^ 31) {k : Nat}
    (hk : t.pos + k ≤ t.written.length) :
    ∃ f', f.genericRead (k + 1) k = some (f', (t.written.drop t.pos).take k) ∧
      Coupled cap f' { t with pos := t.pos + k } := by
  have hlen := h.len
  have hfits := h.fits
  have hspace := h.space
  have hmin : min ((f.buffer.length : Int) - f.rptr) k = k := by
    rw [hlen, h.read]
    split <;> omega
  have hbytes : (f.buffer.drop f.rptr).take k = (t.written.drop t.pos).take k := by
    by_cases hpos : cap ≤ t.pos
    · obtain rfl : k = 0 := by omega
      rfl
    · rw [h.read, if_neg hpos, ← h.taken, List.drop_take, List.take_take,
        Nat.min_eq_left (by omega)]
  rw [HlsFifo.genericRead]
  simp only [hmin, Int.toNat_natCast, hbytes, sub_self, lt_irrefl, if_false]
  rw [if_neg (by omega)]
  refine ⟨_, rfl, h.pos, hlen, hfits, h.taken, h.write, ?_, h.wndx, ?_, ?_⟩
  · simp only [HlsFifo.drain]
    rw [hlen, h.read]
    by_cases hpos : cap ≤ t.pos
    · rw [if_pos hpos, if_neg (by have := h.pos; omega), if_pos (by omega)]
      omega
    · rw [if_neg hpos]
  · simp only [HlsFifo.drain]
    rw [h.rndx, ← Nat.cast_add, u32_natCast (by omega)]
  · dsimp only
    omega

theorem Coupled.buffer_ne (h : Coupled cap f t) : f.buffer ≠ [] :=
  List.ne_nil_of_length_pos (h.len ▸ h.pos)

theorem move_rndx (f : HlsFifo) {pos : Nat} (hpos : pos < 2 ^ 31) :
    (f.revert.drain pos).rndx = pos := by
  simp only [HlsFifo.drain, HlsFifo.revert]
  rw [Nat.cast_zero, zero_add, u32_natCast (by omega)]

/-- The sizes after a position is taken up. -/
theorem Coupled.move_sizes (h : Coupled cap f t) (hcap : cap < 2 ^ 31) {pos : Nat}
    (hpos : pos < 2 ^ 31) :
    simpleCacheGetDataSize (f.revert.drain pos) +
        simpleCacheGetFreeSpace (f.revert.drain pos) = cap ↔
      cap + pos < t.written.length + 2 ^ 31 :=
  sizes_iff h.len hcap h.wndx h.fits (move_rndx f hpos) hpos

/-- A position is taken up, whatever it is. -/
theorem Coupled.move_spec (h : Coupled cap f t) {pos : Nat} (hpos : pos < 2 ^ 31)
    (hspace : cap + pos < t.written.length + 2 ^ 31) :
    Coupled cap (f.revert.drain pos) { t with pos := pos } where
  pos := h.pos
  len := h.len
  fits := h.fits
  taken := h.taken
  write := h.write
  read := by
    have hlen := h.len
    simp only [HlsFifo.drain, HlsFifo.revert, Nat.zero_add, hlen]
  wndx := h.wndx
  rndx := move_rndx f hpos
  space := hspace

theorem Coupled.revert_spec (h : Coupled cap f t) (hcap : cap < 2 ^ 31) :
    Coupled cap f.revert { t with pos := 0 } where
  pos := h.pos
  len := h.len
  fits := h.fits
  taken := h.taken
  write := h.write
  read := by simp [HlsFifo.revert, h.pos.ne']
  wndx := h.wndx
  rndx := rfl
  space := by
    dsimp only
    omega

/-- Moving to a position is turning back and leaving out what is before it. -/
theorem simpleCacheMoveToPos_eq {pos : Int} (hlen : f.buffer ≠ []) :
    (simpleCacheMoveToPos f pos).1 = f.revert.drain pos.toNat := by
  dsimp only [simpleCacheMoveToPos]
  by_cases hneg : 0 < pos
  · rw [if_pos hneg]
  · rw [if_neg hneg, Int.toNat_of_nonpos (by omega)]
    simp [HlsFifo.drain, HlsFifo.revert, hlen, u32]

/-- A read of what there is, of no negative number. -/
theorem Coupled.simpleCacheRead (h : Coupled cap f t) (hcap : cap < 2 ^ 31) {size : Int}
    (hsize : 0 ≤ size) (hpos : t.pos ≤ t.written.length) :
    ∃ f', simpleCacheRead f size = some (f', (t.step (.read size)).2) ∧
      Coupled cap f' (t.step (.read size)).1 := by
  have hfits := h.fits
  have hmin : min f.size size = (min (t.written.length - t.pos) size.toNat : Nat) := by
    rw [size_eq h.wndx h.rndx (by omega) (by omega)]
    omega
  have htake : (t.written.drop t.pos).take (min (t.written.length - t.pos) size.toNat) =
      (t.written.drop t.pos).take size.toNat := by
    rw [← List.length_drop, Nat.min_comm, ← List.take_eq_take_min]
  obtain ⟨f', hread, hcoupled⟩ :=
    h.read_spec hcap (k := min (t.written.length - t.pos) size.toNat) (by omega)
  refine ⟨f', ?_, ?_⟩
  · rw [Hls.simpleCacheRead, hmin, Int.toNat_natCast, hread, htake, Stream.step]
  · have hlen : ((t.written.drop t.pos).take size.toNat).length =
        min (t.written.length - t.pos) size.toNat := by
      rw [List.length_take, List.length_drop, Nat.min_comm]
    simpa only [Stream.step, hlen] using hcoupled

/-- Any other read has no meaning. -/
theorem Coupled.simpleCacheRead_none (h : Coupled cap f t) (hcap : cap < 2 ^ 31) {size : Int}
    (hbad : ¬ (0 ≤ size ∧ t.pos ≤ t.written.length)) : Hls.simpleCacheRead f size = none := by
  have hfits := h.fits
  have hspace := h.space
  have hneg : min f.size size < 0 := by
    rw [size_eq h.wndx h.rndx (by omega) (by omega)]
    omega
  rw [Hls.simpleCacheRead, HlsFifo.genericRead]
  exact if_pos (by omega)

/-- **A step of the cache**: what the operation has to be for it to be right. -/
theorem Coupled.step (h : Coupled cap f t) (hcap : cap < 2 ^ 31) {op : CacheOp}
    (hfits : t.Fits cap op) :
    (CacheRight cap (some f, t) op ↔ t.Allowed cap op) ∧
      (t.Allowed cap op →
        ∃ f', (cacheStep (some f) op).1 = some f' ∧ Coupled cap f' (t.step op).1) := by
  have hdone (f' : HlsFifo) (bytes : List Byte) (hp : f.perform op = some (f', bytes)) :
      (CacheRight cap (some f, t) op ↔ bytes = (t.step op).2 ∧
        simpleCacheGetDataSize f' + simpleCacheGetFreeSpace f' = cap) ∧
      (cacheStep (some f) op).1 = some f' := by
    simp [CacheRight, cacheStep, hp]
  cases op with
  | write buf =>
    obtain ⟨f', hwrite, hcoupled⟩ := h.write_spec hcap hfits.1
    obtain ⟨hright, hstep⟩ := hdone f' []
      (by simp [HlsFifo.perform, simpleCacheWrite, hwrite])
    rw [hright]
    exact ⟨iff_of_true ⟨rfl, hcoupled.sizes hcap⟩ trivial, fun _ => ⟨f', hstep, hcoupled⟩⟩
  | read size =>
    by_cases hok : 0 ≤ size ∧ t.pos ≤ t.written.length
    · obtain ⟨f', hread, hcoupled⟩ := h.simpleCacheRead hcap hok.1 hok.2
      obtain ⟨hright, hstep⟩ := hdone f' _ hread
      rw [hright]
      exact ⟨iff_of_true ⟨rfl, hcoupled.sizes hcap⟩ hok, fun _ => ⟨f', hstep, hcoupled⟩⟩
    · have hnone : f.perform (.read size) = none := h.simpleCacheRead_none hcap hok
      refine ⟨iff_of_false ?_ hok, fun hallowed => absurd hallowed hok⟩
      simp [CacheRight, hnone]
  | moveToPos pos =>
    have hpos : pos < 2 ^ 31 := hfits.2 pos rfl
    have hlt : pos.toNat < 2 ^ 31 := (Int.toNat_lt_of_ne_zero (by decide)).2 (hfits.2 pos rfl)
    obtain ⟨hright, hstep⟩ := hdone (f.revert.drain pos.toNat) []
      (by rw [HlsFifo.perform, simpleCacheMoveToPos_eq h.buffer_ne])
    rw [hright, h.move_sizes hcap hlt]
    exact ⟨by simp [Stream.step, Stream.Allowed],
      fun hspace => ⟨_, hstep, h.move_spec hlt hspace⟩⟩
  | revert =>
    have hcoupled := h.revert_spec hcap
    obtain ⟨hright, hstep⟩ := hdone f.revert [] rfl
    rw [hright]
    exact ⟨iff_of_true ⟨rfl, hcoupled.sizes hcap⟩ trivial, fun _ => ⟨_, hstep, hcoupled⟩⟩

end Ring

/-- No operation writes more than its length. -/
theorem Stream.step_written (t : Stream) (op : CacheOp) :
    (t.step op).1.written.length ≤ t.written.length + op.len := by
  cases op with
  | write buf => simp [Stream.step, CacheOp.len]
  | read size => exact Nat.le_add_right _ _
  | moveToPos pos => exact Nat.le_add_right _ _
  | revert => exact Nat.le_add_right _ _

/-- **The cache is the stream**, in the runs that ask for nothing that was not written. -/
theorem cacheRight_iff {buffer : List Byte} (hbuf : buffer ≠ []) (hcap : buffer.length < 2 ^ 31)
    {ops : List CacheOp} (hfit : (ops.map CacheOp.len).sum ≤ buffer.length)
    (hint : ∀ pos, .moveToPos pos ∈ ops → pos < 2 ^ 31) :
    Each (CacheRight buffer.length) (both cacheStep Stream.step)
        (some (.alloc buffer), .empty) ops ↔
      Each (Stream.Allowed buffer.length) Stream.step .empty ops := by
  have hsum : Each (fun (t : Stream) op => t.written.length + op.len ≤ buffer.length)
      Stream.step .empty ops :=
    each_of_sum (fun t : Stream => t.written.length) CacheOp.len Stream.step_written fun n hn =>
      hn.trans (by simpa [Stream.empty] using hfit)
  have hframe : Each (Stream.Fits buffer.length) Stream.step .empty ops :=
    hsum.and_forall_mem fun op hop pos heq => hint pos (heq ▸ hop)
  refine each_both_iff (R := fun f t => ∃ f', f = some f' ∧ Coupled buffer.length f' t) ?_
    ⟨_, rfl, .alloc hbuf hcap⟩ hframe
  rintro - t op ⟨f, rfl, hcoupled⟩ hfits
  exact hcoupled.step hcap hfits

/-- Three bytes, read in part and again. -/
theorem cacheRight_again :
    Each (CacheRight 4) (both cacheStep Stream.step) (some (.alloc [0, 0, 0, 0]), .empty)
      [.write [1, 2, 3], .read 2, .moveToPos 1, .read 5] :=
  (@cacheRight_iff [0, 0, 0, 0] (by decide) (by decide) _ (by decide) (by simp)).2
    (by simp [Stream.Allowed, Stream.step, Stream.empty])

/-- **Past what was written**: the size is negative, and so is the length that is copied. -/
theorem not_cacheRight_past :
    ¬ Each (CacheRight 8) (both cacheStep Stream.step)
      (some (.alloc (List.replicate 8 0)), .empty)
      [.write [1, 2, 3, 4, 5], .moveToPos 7, .read 1] := by
  decide

end VendorAmlogic.Hls
