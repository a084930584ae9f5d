import VendorAmlogic.Fbc.Flash

/-!
# Updates over the serial line

`handle_update`, `handle_check` and `data_stream_read` of `boot/update.c`, on a
flash that erases, writes and reads what it is told to. The image comes in
pieces of the buffer's length, each with its CRC. For each piece the whole range
is erased, and the buffer is compared with all that was written so far: an image
of one piece is written, of a longer one the last piece is left.
-/

namespace VendorAmlogic.Fbc

open VendorAmlogic.Lib

/-! ## The flash -/

abbrev SpiFlash := BitVec 32 → Byte

namespace SpiFlash

/-- `spi_flash_erase`. -/
def erase (f : SpiFlash) (o : BitVec 32) (n : Nat) : SpiFlash :=
  fun a => if (a - o).toNat < n then 0xFF else f a

/-- `spi_flash_write`. -/
def write (f : SpiFlash) (o : BitVec 32) (d : List Byte) : SpiFlash :=
  fun a => if (a - o).toNat < d.length then d.getD (a - o).toNat 0 else f a

/-- `spi_flash_read`. -/
def read (f : SpiFlash) (o : BitVec 32) (n : Nat) : List Byte :=
  (List.range n).map fun i => f (o + BitVec.ofNat 32 i)

end SpiFlash

/-- `illegal_address_check` returns 0, with `PQ_BINARY_START` and `FBC_FACTORY_START`. -/
def legalAddress (pqBinaryStart fbcFactoryStart offset size : Nat) : Bool :=
  let last := u32 (offset + size - 1)
  (Section.s0.infoOffset ≤ offset ∧ last < Section.s0.infoOffset + sectionInfoSize) ∨
    (Section.s0.offset ≤ offset ∧ last < Section.s0.offset + sectionSize) ∨
    (pqBinaryStart ≤ offset ∧ last < fbcFactoryStart)

/-! ## `handle_update` -/

def maxBufSize : Nat := 0x10000
def maxExtBufSize : Nat := 0x2000
def spiFlashSectorSize : Nat := 4096
def maxRewriteCnt : Nat := 1

/-- `update_ctrl_t`, with the flash and the memory from `buf` on. -/
structure UpdateCtrl where
  sOffs : BitVec 32
  total : Nat
  receivedCnt : Nat
  writeSpiCnt : Nat
  dRewriteCnt : Nat
  mem : Mem
  flash : SpiFlash

/-- The first erase size that is enough; one that wraps never is. -/
def eraseSize (total size : Nat) : Option Nat :=
  if size < total then
    if size + spiFlashSectorSize < 2 ^ 32 then eraseSize total (size + spiFlashSectorSize) else none
  else some size
termination_by total - size
decreasing_by
  unfold spiFlashSectorSize
  omega

namespace UpdateCtrl

/-- `data_stream_read` of a piece, at byte `i`, with the length of the piece. -/
def readPiece (u : UpdateCtrl) (i : Nat) : List Byte → Option (UpdateCtrl × Nat × List Byte)
  | [] => none
  | c :: stream =>
    let u := { u with
      mem := if i < maxBufSize then Function.update u.mem i c else u.mem
      receivedCnt := u32 (u.receivedCnt + 1) }
    if i = maxBufSize - 1 ∨ u.receivedCnt = u.total then some (u, i + 1, stream)
    else u.readPiece (i + 1) stream

/-- The comparison of `len` bytes, from `sCmp` of the buffer on. -/
def compare (u : UpdateCtrl) (offset : BitVec 32) (sCmp len : Nat) : Bool :=
  u.mem.read sCmp len == u.flash.read offset len

/-- The loop of `handle_check`. -/
def checkLoop (u : UpdateCtrl) (offset : BitVec 32) (sCmp total : Nat) : Bool :=
  if total = 0 then true
  else
    let len := if maxExtBufSize ≤ total then maxExtBufSize else total
    if u.compare offset sCmp len then
      u.checkLoop (offset + BitVec.ofNat 32 len) (sCmp + len) (total - len)
    else false
termination_by total
decreasing_by
  unfold maxExtBufSize
  split <;> omega

/-- `handle_check` returns 0. -/
def handleCheck (u : UpdateCtrl) : Bool := u.checkLoop u.sOffs 0 (i32 u.writeSpiCnt).toNat

/-- The erase and the write of a piece of `n` bytes. -/
def program (u : UpdateCtrl) (erased n : Nat) : UpdateCtrl :=
  { u with
    flash := (u.flash.erase u.sOffs erased).write (u.sOffs + BitVec.ofNat 32 u.writeSpiCnt)
      (u.mem.read 0 n)
    writeSpiCnt := u32 (u.writeSpiCnt + n) }

/-- The piece is written until the check returns 0, with so many rewrites left. -/
def rewrite (erased n : Nat) : Nat → UpdateCtrl → UpdateCtrl × Bool
  | left, u =>
    let u := u.program erased n
    if u.handleCheck then (u, true)
    else
      let u := { u with dRewriteCnt := u.dRewriteCnt + 1 }
      match left with
      | 0 => (u, false)
      | left + 1 => rewrite erased n left { u with writeSpiCnt := u32 (u.writeSpiCnt - n) }

/-- `data_stream_read` of a CRC. -/
def readCrc : List Byte → Option (Nat × List Byte)
  | c0 :: c1 :: c2 :: c3 :: stream => some (ofLe [c0, c1, c2, c3], stream)
  | _ => none

/-- The CRC of what has been received, up to the length of the buffer. -/
def bufCrc (u : UpdateCtrl) : BitVec 32 :=
  crc32 0 (u.mem.read 0 (if u.receivedCnt ≥ maxBufSize then maxBufSize else u.receivedCnt))

/-- One round of the loop of `handle_update`; no stream is left where that returns -1. -/
def receive (u : UpdateCtrl) (erased : Nat) (stream : List Byte) :
    Option (UpdateCtrl × Option (List Byte)) := do
  let (u, n, stream) ← u.readPiece 0 stream
  let (code, stream) ← readCrc stream
  if u.bufCrc.toNat ≠ code then some (u, none)
  else
    let (u, ok) := rewrite erased n (maxRewriteCnt - u.dRewriteCnt) u
    some (u, if ok then some stream else none)

section
variable {u u' : UpdateCtrl} {stream rest : List Byte} {i n erased code : Nat}

theorem readPiece_length (h : u.readPiece i stream = some (u', n, rest)) :
    rest.length < stream.length := by
  induction stream generalizing u i with
  | nil => cases h
  | cons c stream ih =>
    unfold readPiece at h
    dsimp only at h
    split at h
    · cases h
      exact Nat.lt_succ_self _
    · exact (ih h).trans (Nat.lt_succ_self _)

theorem readCrc_length (h : readCrc stream = some (code, rest)) :
    rest.length < stream.length := by
  unfold readCrc at h
  split at h
  · cases h
    simp only [List.length_cons]
    omega
  · cases h

theorem receive_length (h : u.receive erased stream = some (u', some rest)) :
    rest.length < stream.length := by
  obtain ⟨⟨u1, n, s1⟩, h1, h⟩ := Option.bind_eq_some_iff.mp h
  obtain ⟨⟨code, s2⟩, h2, h⟩ := Option.bind_eq_some_iff.mp h
  have hlt := (readCrc_length h2).trans (readPiece_length h1)
  dsimp only at h
  split at h
  · cases h
  · obtain ⟨-, h⟩ := Prod.mk.inj (Option.some.inj h)
    split at h
    · cases h
      exact hlt
    · cases h

end

/-- The loop of `handle_update`, with what that returns; it waits where the stream ends. -/
def updateLoop (erased : Nat) (u : UpdateCtrl) (stream : List Byte) : Option (UpdateCtrl × Int) :=
  match h : u.receive erased stream with
  | none => none
  | some (u, none) => some (u, -1)
  | some (u, some rest) =>
    if u.receivedCnt = u.total then some (u, i32 u.writeSpiCnt) else updateLoop erased u rest
termination_by stream.length
decreasing_by exact receive_length h

end UpdateCtrl

/-- `handle_update` after `handle_cmd` has set the offset and the length. -/
def handleUpdate (sOffs : BitVec 32) (total : Nat) (mem : Mem) (flash : SpiFlash)
    (stream : List Byte) : Option (UpdateCtrl × Int) := do
  let erased ← eraseSize total spiFlashSectorSize
  UpdateCtrl.updateLoop erased ⟨sOffs, total, 0, 0, 0, mem, flash⟩ stream

/-! ## The pieces -/

/-- The length of piece `k` of an image of `total` bytes. -/
def pieceLen (total k : Nat) : Nat := min maxBufSize (total - maxBufSize * k)

/-- Where piece `k` ends in the image. -/
def pieceEnd (total k : Nat) : Nat := maxBufSize * k + pieceLen total k

/-- Where piece `k` begins in the stream: there are four bytes of CRC behind each. -/
def pieceAt (k : Nat) : Nat := (maxBufSize + 4) * k

/-- Piece `k` in the stream. -/
def pieceOf (total : Nat) (stream : List Byte) (k : Nat) : List Byte :=
  (stream.drop (pieceAt k)).take (pieceLen total k)

/-- Behind a piece that is not the last one is the next. -/
theorem pieceEnd_next {total k : Nat} (hk : maxBufSize * k < total)
    (hend : pieceEnd total k ≠ total) :
    maxBufSize * (k + 1) < total ∧ pieceEnd total k = maxBufSize * (k + 1) ∧
      pieceAt k + pieceLen total k + 4 = pieceAt (k + 1) := by
  have hfull : pieceLen total k = maxBufSize ∧ maxBufSize * (k + 1) < total := by
    unfold pieceEnd at hend
    unfold pieceLen at hend ⊢
    unfold maxBufSize at hk hend ⊢
    omega
  refine ⟨hfull.2, ?_, ?_⟩
  · rw [pieceEnd, hfull.1, Nat.mul_add, Nat.mul_one]
  · rw [hfull.1, pieceAt, pieceAt, Nat.mul_add, Nat.mul_one, Nat.add_assoc]

/-- The CRC that came with piece `k`. -/
def codeOf (total : Nat) (stream : List Byte) (k : Nat) : Nat :=
  ofLe ((stream.drop (pieceAt k + pieceLen total k)).take 4)

/-- The buffer, and the memory behind it, after `k` pieces. -/
def heldMem (total : Nat) (mem : Mem) (stream : List Byte) : Nat → Mem
  | 0 => mem
  | k + 1 => (heldMem total mem stream k).copy 0 (pieceOf total stream k)

namespace UpdateCtrl

section
variable {u : UpdateCtrl} {stream : List Byte} {i n erased : Nat}

/-- A piece is read up to where the buffer is full, or the image is. -/
theorem readPiece_spec (stream : List Byte) (hn : 0 < n) (hi : i + n ≤ maxBufSize)
    (hr : u.receivedCnt + n < 2 ^ 32)
    (hend : i + n = maxBufSize ∨ u.receivedCnt + n = u.total)
    (hnot : ∀ j, 0 < j → j < n → u.receivedCnt + j ≠ u.total) :
    u.readPiece i stream =
      if stream.length < n then none
      else some ({ u with
        mem := u.mem.copy i (stream.take n)
        receivedCnt := u.receivedCnt + n }, i + n, stream.drop n) := by
  induction stream generalizing u i n with
  | nil =>
    rw [if_pos (by simp only [List.length_nil]; omega)]
    rfl
  | cons c stream ih =>
    have hcnt : u32 (u.receivedCnt + 1) = u.receivedCnt + 1 := by
      have h := u32_natCast (n := u.receivedCnt + 1) (by omega)
      exact_mod_cast h
    unfold readPiece
    simp only [if_pos (show i < maxBufSize by omega), hcnt]
    obtain ⟨n, rfl⟩ : ∃ m, n = m + 1 := ⟨n - 1, by omega⟩
    by_cases hlast : n = 0
    · subst hlast
      rw [if_pos (by omega), if_neg (by simp)]
      simp only [List.take_succ_cons, List.take_zero, List.drop_succ_cons, List.drop_zero,
        Mem.copy_cons, Mem.copy_nil, Nat.zero_add]
    · have hmore : ¬ (i = maxBufSize - 1 ∨ u.receivedCnt + 1 = u.total) := by
        rintro (h | h)
        · omega
        · exact hnot 1 Nat.one_pos (by omega) h
      have hnext := ih (u := { u with
        mem := Function.update u.mem i c
        receivedCnt := u.receivedCnt + 1 }) (i := i + 1) (n := n) (by omega) (by omega)
        (by dsimp only; omega) (by dsimp only; omega) (by
          dsimp only
          intro j hj hlt
          have := hnot (j + 1) (by omega) (by omega)
          omega)
      rw [if_neg hmore, hnext]
      simp only [List.length_cons, Nat.add_lt_add_iff_right, List.take_succ_cons,
        List.drop_succ_cons, Mem.copy_cons]
      rw [show i + 1 + n = i + (n + 1) by omega,
        show u.receivedCnt + 1 + n = u.receivedCnt + (n + 1) by omega]

theorem compare_iff {offset : BitVec 32} {sCmp len : Nat} :
    u.compare offset sCmp len = true ↔
      ∀ i, i < len → u.mem (sCmp + i) = u.flash (offset + BitVec.ofNat 32 i) := by
  unfold compare Mem.read SpiFlash.read
  rw [beq_iff_eq, List.map_inj_left]
  simp only [List.mem_range]

/-- The check compares all bytes. -/
theorem checkLoop_iff {offset : BitVec 32} {sCmp total : Nat} :
    u.checkLoop offset sCmp total = true ↔
      ∀ i, i < total → u.mem (sCmp + i) = u.flash (offset + BitVec.ofNat 32 i) := by
  induction total using Nat.strong_induction_on generalizing offset sCmp with
  | _ total ih =>
    rw [checkLoop]
    by_cases h0 : total = 0
    · rw [if_pos h0]
      exact iff_of_true rfl fun i hi => by omega
    · rw [if_neg h0]
      dsimp only
      generalize hlen : (if maxExtBufSize ≤ total then maxExtBufSize else total) = len
      have hle : 0 < len ∧ len ≤ total := by
        have hext : maxExtBufSize = 8192 := rfl
        split at hlen <;> omega
      have hih := @ih (total - len) (by omega) (offset + BitVec.ofNat 32 len) (sCmp + len)
      by_cases hcmp : u.compare offset sCmp len = true
      · rw [if_pos hcmp, hih]
        rw [compare_iff] at hcmp
        constructor
        · intro h i hi
          by_cases hin : i < len
          · exact hcmp i hin
          · have := h (i - len) (by omega)
            rwa [Nat.add_assoc, BitVec.add_assoc, ← BitVec.ofNat_add,
              show len + (i - len) = i by omega] at this
        · intro h i hi
          rw [Nat.add_assoc, BitVec.add_assoc, ← BitVec.ofNat_add]
          exact h (len + i) (by omega)
      · rw [if_neg hcmp]
        refine iff_of_false (by simp) fun h => hcmp (compare_iff.mpr fun i hi => ?_)
        exact h i (by omega)

theorem readCrc_eq (stream : List Byte) : readCrc stream =
    if stream.length < 4 then none else some (ofLe (stream.take 4), stream.drop 4) := by
  rcases stream with _ | ⟨c0, _ | ⟨c1, _ | ⟨c2, _ | ⟨c3, stream⟩⟩⟩⟩
  · rfl
  · rfl
  · rfl
  · rfl
  · rw [if_neg (by simp only [List.length_cons]; omega)]
    rfl

/-- The flash after a write: blank but for the piece. -/
theorem program_flash (hw : u.writeSpiCnt + n ≤ erased) (he : erased < 2 ^ 32) (hi : i < erased) :
    (u.program erased n).flash (u.sOffs + BitVec.ofNat 32 i) =
      if u.writeSpiCnt ≤ i ∧ i < u.writeSpiCnt + n then u.mem (i - u.writeSpiCnt) else 0xFF := by
  have hfrom : (u.sOffs + BitVec.ofNat 32 i - u.sOffs).toNat = i := by
    rw [BitVec.add_comm, BitVec.add_sub_cancel, BitVec.toNat_ofNat]
    omega
  have hat : (u.sOffs + BitVec.ofNat 32 i - (u.sOffs + BitVec.ofNat 32 u.writeSpiCnt)).toNat =
      if u.writeSpiCnt ≤ i then i - u.writeSpiCnt else 2 ^ 32 + i - u.writeSpiCnt := by
    have h1 : u.sOffs + BitVec.ofNat 32 i - (u.sOffs + BitVec.ofNat 32 u.writeSpiCnt) =
        BitVec.ofNat 32 i - BitVec.ofNat 32 u.writeSpiCnt := by
      bv_omega
    rw [h1, BitVec.toNat_sub, BitVec.toNat_ofNat, BitVec.toNat_ofNat]
    split <;> omega
  unfold program SpiFlash.write SpiFlash.erase
  simp only [hat, hfrom, if_pos hi, Mem.length_read]
  by_cases hin : u.writeSpiCnt ≤ i
  · rw [if_pos hin]
    by_cases hlt : i < u.writeSpiCnt + n
    · rw [if_pos (by omega), if_pos ⟨hin, hlt⟩, Mem.getD_read (by omega), Nat.zero_add]
    · rw [if_neg (by omega), if_neg fun h => hlt h.2]
  · rw [if_neg hin, if_neg (by omega), if_neg fun h => hin h.1]

/-- What the check asks for behind the first piece: that the memory is blank. -/
def Blank (u : UpdateCtrl) (n : Nat) : Prop :=
  0 < u.writeSpiCnt → 0 < i32 (u.writeSpiCnt + n : Nat) →
    ∀ i, i < u.writeSpiCnt + n → u.mem i = 0xFF

theorem program_writeSpiCnt (hw : u.writeSpiCnt + n ≤ erased) (he : erased < 2 ^ 32) :
    (u.program erased n).writeSpiCnt = u.writeSpiCnt + n := by
  have h := u32_natCast (n := u.writeSpiCnt + n) (by omega)
  exact_mod_cast h

theorem program_check (hw : u.writeSpiCnt + n ≤ erased) (he : erased < 2 ^ 32)
    (hfirst : 0 < u.writeSpiCnt → n ≤ u.writeSpiCnt) :
    (u.program erased n).handleCheck = true ↔ u.Blank n := by
  unfold handleCheck
  rw [checkLoop_iff, program_writeSpiCnt hw he]
  simp only [Nat.zero_add]
  have hflash (i : Nat) (hi : i < u.writeSpiCnt + n) :
      (u.program erased n).flash ((u.program erased n).sOffs + BitVec.ofNat 32 i) =
        if u.writeSpiCnt ≤ i then u.mem (i - u.writeSpiCnt) else 0xFF := by
    have h := program_flash (u := u) hw he (i := i) (by omega)
    simp only [hi, and_true] at h
    exact h
  have hmem : (u.program erased n).mem = u.mem := rfl
  rw [hmem]
  constructor
  · intro h h0 hpos i hi
    have hlen := i32_of_pos (by omega) hpos
    rw [hlen, Int.toNat_natCast] at h
    by_cases hin : u.writeSpiCnt ≤ i
    · -- the piece, which is at the beginning of the buffer too
      have hlow := h (i - u.writeSpiCnt) (by omega)
      rw [hflash _ (by omega), if_neg (by have := hfirst h0; omega)] at hlow
      rw [h i hi, hflash i hi, if_pos hin, hlow]
    · rw [h i hi, hflash i hi, if_neg hin]
  · intro h i hi
    have hpos : 0 < i32 (u.writeSpiCnt + n : Nat) := by omega
    rw [i32_of_pos (by omega) hpos, Int.toNat_natCast] at hi
    rw [hflash i hi]
    by_cases h0 : 0 < u.writeSpiCnt
    · have hblank := h h0 hpos
      rw [hblank i hi]
      split
      · exact (hblank _ (by omega)).symm
      · rfl
    · rw [if_pos (by omega), show i - u.writeSpiCnt = i by omega]

/-- A rewrite ends as the first write does. -/
theorem rewrite_spec (left : Nat) (hw : u.writeSpiCnt + n ≤ erased) (he : erased < 2 ^ 32)
    (hfirst : 0 < u.writeSpiCnt → n ≤ u.writeSpiCnt) :
    (u.Blank n → rewrite erased n left u = (u.program erased n, true)) ∧
      (¬ u.Blank n → (rewrite erased n left u).2 = false) := by
  constructor
  · intro hblank
    rw [rewrite, if_pos ((program_check hw he hfirst).2 hblank)]
  · intro hblank
    induction left generalizing u with
    | zero =>
      have hcheck := mt (program_check hw he hfirst).1 hblank
      rw [rewrite]
      dsimp only
      split
      · rename_i hyes
        exact absurd hyes hcheck
      · rfl
    | succ left ih =>
      have hcheck := mt (program_check hw he hfirst).1 hblank
      have hback : u32 ((u.program erased n).writeSpiCnt - n) = u.writeSpiCnt := by
        rw [program_writeSpiCnt hw he, Nat.cast_add, add_sub_cancel_right]
        exact u32_natCast (by omega)
      have hnext (u1 : UpdateCtrl) (hmem : u1.mem = u.mem)
          (hcnt : u1.writeSpiCnt = u.writeSpiCnt) : (rewrite erased n left u1).2 = false := by
        refine ih (by rwa [hcnt]) (by rwa [hcnt]) ?_
        unfold Blank
        rwa [hmem, hcnt]
      rw [rewrite]
      dsimp only
      split
      · rename_i hyes
        exact absurd hyes hcheck
      · exact hnext _ rfl hback

end

end UpdateCtrl

theorem eraseSize_some {total size : Nat} (hs : size < 2 ^ 32) (hd : spiFlashSectorSize ∣ size)
    (ht : total ≤ 2 ^ 32 - spiFlashSectorSize) :
    ∃ erased, eraseSize total size = some erased ∧ total ≤ erased ∧ erased < 2 ^ 32 := by
  induction size using eraseSize.induct total with
  | case1 size hlt hfit ih =>
    rw [eraseSize, if_pos hlt, if_pos hfit]
    exact ih hfit (Nat.dvd_add hd (dvd_refl _))
  | case2 size hlt hwrap => omega
  | case3 size hge =>
    rw [eraseSize, if_neg hge]
    exact ⟨size, rfl, not_lt.mp hge, hs⟩

theorem eraseSize_none {total size : Nat} (hs : size < 2 ^ 32) (hd : spiFlashSectorSize ∣ size)
    (ht : 2 ^ 32 - spiFlashSectorSize < total) : eraseSize total size = none := by
  induction size using eraseSize.induct total with
  | case1 size hlt hfit ih =>
    rw [eraseSize, if_pos hlt, if_pos hfit]
    exact ih hfit (Nat.dvd_add hd (dvd_refl _))
  | case2 size hlt hwrap => rw [eraseSize, if_pos hlt, if_neg hwrap]
  | case3 size hge =>
    obtain ⟨m, rfl⟩ := hd
    unfold spiFlashSectorSize at *
    omega

/-! ## A run of the loop -/

/-- When piece `k` is taken: it is there, its CRC is that of the buffer, and behind the first
piece the memory is blank, up to what has been received so far. -/
structure PieceOk (total : Nat) (mem : Mem) (stream : List Byte) (k : Nat) : Prop where
  all : pieceAt k + pieceLen total k + 4 ≤ stream.length
  crc : (crc32 0 ((heldMem total mem stream (k + 1)).read 0
    (min (pieceEnd total k) maxBufSize))).toNat = codeOf total stream k
  blank : 0 < k → 0 < i32 (pieceEnd total k) →
    ∀ i, i < pieceEnd total k → heldMem total mem stream (k + 1) i = 0xFF

namespace UpdateCtrl

/-- After so many pieces, with so many bytes. -/
structure Holds (u : UpdateCtrl) (sOffs : BitVec 32) (total : Nat) (mem : Mem) (cnt : Nat) :
    Prop where
  sOffs : u.sOffs = sOffs
  total : u.total = total
  received : u.receivedCnt = cnt
  written : u.writeSpiCnt = cnt
  mem : u.mem = mem

/-- The flash after piece `k`. -/
def LastLeft (u : UpdateCtrl) (sOffs : BitVec 32) (total : Nat) (mem : Mem) (k : Nat) : Prop :=
  ∀ i, i < pieceEnd total k → u.flash (sOffs + BitVec.ofNat 32 i) =
    if maxBufSize * k ≤ i then mem (i - maxBufSize * k) else 0xFF

section
variable {u : UpdateCtrl} {stream : List Byte} {sOffs : BitVec 32} {total k erased : Nat}
  {mem : Mem}

theorem receive_eq {u1 : UpdateCtrl} {n : Nat} {rest : List Byte}
    (hread : u.readPiece 0 stream = some (u1, n, rest)) :
    u.receive erased stream =
      if rest.length < 4 then none
      else if u1.bufCrc.toNat ≠ ofLe (rest.take 4) then some (u1, none)
      else
        let r := rewrite erased n (maxRewriteCnt - u1.dRewriteCnt) u1
        some (r.1, if r.2 then some (rest.drop 4) else none) := by
  unfold UpdateCtrl.receive
  rw [hread, Option.bind_eq_bind, Option.bind_some]
  dsimp only
  rw [readCrc_eq]
  split
  · rfl
  · rfl

/-- A piece, where the stream has it. -/
theorem Holds.readPiece (hu : u.Holds sOffs total (heldMem total mem stream k) (maxBufSize * k))
    (hk : maxBufSize * k < total) (ht : total < 2 ^ 32) :
    ((stream.drop (pieceAt k)).length < pieceLen total k →
      u.readPiece 0 (stream.drop (pieceAt k)) = none) ∧
    (pieceLen total k ≤ (stream.drop (pieceAt k)).length →
      ∃ u1, u.readPiece 0 (stream.drop (pieceAt k)) =
          some (u1, pieceLen total k, stream.drop (pieceAt k + pieceLen total k)) ∧
        u1.mem = heldMem total mem stream (k + 1) ∧ u1.writeSpiCnt = maxBufSize * k ∧
        u1.receivedCnt = pieceEnd total k ∧ u1.sOffs = sOffs ∧ u1.total = total) := by
  have hread := readPiece_spec (u := u) (i := 0) (n := pieceLen total k)
    (stream.drop (pieceAt k)) (by unfold pieceLen maxBufSize at *; omega)
    (by unfold pieceLen; omega)
    (by rw [hu.received]; unfold pieceLen; omega)
    (by rw [hu.received, hu.total]; unfold pieceLen; omega)
    (by rw [hu.received, hu.total]; unfold pieceLen; omega)
  rw [hread]
  refine ⟨fun hshort => if_pos hshort, fun hlong => ?_⟩
  rw [if_neg (not_lt.mpr hlong), Nat.zero_add, List.drop_drop]
  refine ⟨_, rfl, ?_, hu.written, ?_, hu.sOffs, hu.total⟩
  · rw [hu.mem]
    rfl
  · rw [hu.received]
    rfl

/-- The buffer is written, and nothing else of what was received is left. -/
theorem Holds.program (hm : u.mem = mem) (hw : u.writeSpiCnt = maxBufSize * k)
    (hr : u.receivedCnt = pieceEnd total k) (ho : u.sOffs = sOffs) (ht : u.total = total)
    (hle : pieceEnd total k ≤ erased) (he : erased < 2 ^ 32) :
    (u.program erased (pieceLen total k)).Holds sOffs total mem (pieceEnd total k) ∧
      (u.program erased (pieceLen total k)).LastLeft sOffs total mem k := by
  have hend : maxBufSize * k + pieceLen total k = pieceEnd total k := rfl
  have hcnt : u.writeSpiCnt + pieceLen total k ≤ erased := by rwa [hw, hend]
  refine ⟨⟨ho, ht, hr, ?_, hm⟩, fun i hi => ?_⟩
  · rw [program_writeSpiCnt hcnt he, hw, hend]
  · rw [← ho, program_flash hcnt he (by omega), hw, hend, hm]
    simp only [hi, and_true]

/-- One round takes a piece, or ends the update. -/
theorem Holds.receive (hu : u.Holds sOffs total (heldMem total mem stream k) (maxBufSize * k))
    (hk : maxBufSize * k < total) (ht : total ≤ erased) (he : erased < 2 ^ 32) :
    (PieceOk total mem stream k →
      ∃ u', u.receive erased (stream.drop (pieceAt k)) =
          some (u', some (stream.drop (pieceAt k + pieceLen total k + 4))) ∧
        u'.Holds sOffs total (heldMem total mem stream (k + 1)) (pieceEnd total k) ∧
        u'.LastLeft sOffs total (heldMem total mem stream (k + 1)) k) ∧
    (¬ PieceOk total mem stream k →
      u.receive erased (stream.drop (pieceAt k)) = none ∨
        ∃ u', u.receive erased (stream.drop (pieceAt k)) = some (u', none)) := by
  obtain ⟨hshort, hlong⟩ := hu.readPiece hk (by omega)
  by_cases hlen : (stream.drop (pieceAt k)).length < pieceLen total k
  · refine ⟨fun hok => ?_, fun _ => .inl ?_⟩
    · have := hok.all
      rw [List.length_drop] at hlen
      omega
    · unfold UpdateCtrl.receive
      rw [hshort hlen]
      rfl
  obtain ⟨u1, hread, hm1, hw1, hr1, ho1, ht1⟩ := hlong (not_lt.mp hlen)
  rw [receive_eq hread, List.drop_drop]
  by_cases hlen4 : (stream.drop (pieceAt k + pieceLen total k)).length < 4
  · rw [if_pos hlen4]
    refine ⟨fun hok => ?_, fun _ => .inl rfl⟩
    have := hok.all
    rw [List.length_drop] at hlen4
    omega
  rw [if_neg hlen4]
  have hcrc : u1.bufCrc = crc32 0 ((heldMem total mem stream (k + 1)).read 0
      (min (pieceEnd total k) maxBufSize)) := by
    unfold bufCrc
    rw [hm1, hr1]
    congr 2
    split <;> omega
  have hcode : ofLe ((stream.drop (pieceAt k + pieceLen total k)).take 4) =
      codeOf total stream k := rfl
  rw [hcode]
  by_cases hne : u1.bufCrc.toNat ≠ codeOf total stream k
  · rw [if_pos hne]
    exact ⟨fun hok => absurd (hcrc ▸ hok.crc) hne, fun _ => .inr ⟨u1, rfl⟩⟩
  rw [if_neg hne]
  have hend : maxBufSize * k + pieceLen total k = pieceEnd total k := rfl
  have hle : pieceEnd total k ≤ erased := by
    unfold pieceEnd pieceLen
    omega
  have hblank : u1.Blank (pieceLen total k) ↔ (0 < k → 0 < i32 (pieceEnd total k) →
      ∀ i, i < pieceEnd total k → heldMem total mem stream (k + 1) i = 0xFF) := by
    unfold Blank
    rw [hw1, hm1, hend, Nat.mul_pos_iff_of_pos_left (by decide)]
  obtain ⟨hyes, hno⟩ := rewrite_spec (u := u1) (n := pieceLen total k)
    (maxRewriteCnt - u1.dRewriteCnt) (by rw [hw1]; omega) he (by
      rw [hw1, Nat.mul_pos_iff_of_pos_left (by decide)]
      intro h0
      have := Nat.le_mul_of_pos_right maxBufSize h0
      exact (Nat.min_le_left ..).trans this)
  constructor
  · intro hok
    rw [hyes (hblank.2 hok.blank)]
    exact ⟨_, rfl, Holds.program hm1 hw1 hr1 ho1 ht1 hle he⟩
  · intro hok
    have hnot : ¬ u1.Blank (pieceLen total k) := fun h =>
      hok ⟨by rw [List.length_drop] at hlen hlen4; omega, hcrc ▸ not_not.mp hne, hblank.1 h⟩
    dsimp only
    rw [hno hnot]
    exact .inr ⟨_, rfl⟩

theorem updateLoop_eq (erased : Nat) (u : UpdateCtrl) (stream : List Byte) :
    updateLoop erased u stream = (u.receive erased stream).bind fun r =>
      match r.2 with
      | none => some (r.1, -1)
      | some rest =>
        if r.1.receivedCnt = r.1.total then some (r.1, i32 r.1.writeSpiCnt)
        else updateLoop erased r.1 rest := by
  rw [updateLoop]
  split
  · rename_i h
    rw [h]
    rfl
  · rename_i h
    rw [h]
    rfl
  · rename_i h
    rw [h]
    rfl

/-- **A run of the loop**: it takes all pieces and leaves the last one, or it does not return 0 or
more. -/
theorem Holds.updateLoop (hu : u.Holds sOffs total (heldMem total mem stream k) (maxBufSize * k))
    (hk : maxBufSize * k < total) (ht : total ≤ erased) (he : erased < 2 ^ 32) :
    ((∀ j, k ≤ j → maxBufSize * j < total → PieceOk total mem stream j) →
      ∃ u' j, UpdateCtrl.updateLoop erased u (stream.drop (pieceAt k)) = some (u', i32 total) ∧
        maxBufSize * j < total ∧ pieceEnd total j = total ∧
        u'.LastLeft sOffs total (heldMem total mem stream (j + 1)) j) ∧
    (∀ j, k ≤ j → maxBufSize * j < total → ¬ PieceOk total mem stream j →
      ∀ u' ret, UpdateCtrl.updateLoop erased u (stream.drop (pieceAt k)) = some (u', ret) →
        ret = -1) := by
  induction hm : total - maxBufSize * k using Nat.strong_induction_on generalizing k u with
  | _ m ih =>
    obtain ⟨htaken, hrefused⟩ := hu.receive hk ht he
    rw [updateLoop_eq]
    by_cases hok : PieceOk total mem stream k
    · obtain ⟨u1, hround, hu1, hleft⟩ := htaken hok
      rw [hround, Option.bind_some]
      dsimp only
      rw [hu1.received, hu1.total, hu1.written]
      by_cases hend : pieceEnd total k = total
      · rw [if_pos hend, hend]
        refine ⟨fun _ => ⟨u1, k, rfl, hk, hend, hleft⟩, fun j hkj hj hnot => ?_⟩
        obtain rfl : j = k := by
          unfold pieceEnd pieceLen maxBufSize at hend
          unfold maxBufSize at hj
          omega
        exact absurd hok hnot
      · rw [if_neg hend]
        obtain ⟨hmore, hnext, hat⟩ := pieceEnd_next hk hend
        rw [hat]
        have hless : total - maxBufSize * (k + 1) < m := by
          rw [Nat.mul_add, Nat.mul_one] at hmore ⊢
          have hN : 0 < maxBufSize := by decide
          omega
        obtain ⟨hall, hsome⟩ := ih _ hless (hnext ▸ hu1) hmore rfl
        refine ⟨fun h => hall fun j hkj => h j (by omega), fun j hkj hj hnot => ?_⟩
        rcases Nat.eq_or_lt_of_le hkj with rfl | hlt
        · exact absurd hok hnot
        · exact hsome j hlt hj hnot
    · refine ⟨fun h => absurd (h k (le_refl k) hk) hok, fun _ _ _ _ u' ret hloop => ?_⟩
      rcases hrefused hok with hwaits | ⟨u1, hround⟩
      · rw [hwaits] at hloop
        cases hloop
      · rw [hround] at hloop
        cases hloop
        rfl

end

end UpdateCtrl

/-! ## Images and streams -/

/-- Byte `a` of the data in the stream. -/
def dataByte (stream : List Byte) (a : Nat) : Byte :=
  stream.getD (pieceAt (a / maxBufSize) + a % maxBufSize) 0

/-- The data in the stream. -/
def dataBytes (total : Nat) (stream : List Byte) : List Byte :=
  (List.range total).map (dataByte stream)

/-- Where the last piece begins. -/
def lastPiece (total : Nat) : Nat := maxBufSize * ((total - 1) / maxBufSize)

/-- The stream begins with the image in pieces, each with its CRC behind it. -/
def Carries (stream image : List Byte) : Prop :=
  ∀ k, maxBufSize * k < image.length →
    (stream.drop (pieceAt k)).take (pieceLen image.length k + 4) =
      (image.drop (maxBufSize * k)).take maxBufSize ++
        leBytes 4 (crc32 0 ((image.drop (maxBufSize * k)).take maxBufSize)).toNat

/-- A streamed image is written, and what is not refused is what was received. -/
def UpdateRight (sOffs : BitVec 32) (total : Nat) (mem : Mem) (flash : SpiFlash)
    (stream : List Byte) : Prop :=
  (∀ image : List Byte, image.length = total → Carries stream image →
    ∃ u ret, handleUpdate sOffs total mem flash stream = some (u, ret) ∧ ret ≠ -1 ∧
      u.flash.read sOffs total = image) ∧
  ∀ u ret, handleUpdate sOffs total mem flash stream = some (u, ret) → ret ≠ -1 →
    u.flash.read sOffs total = dataBytes total stream

/-- No piece is refused. -/
def Accepted (total : Nat) (mem : Mem) (stream : List Byte) : Prop :=
  total ≤ 2 ^ 32 - spiFlashSectorSize ∧
    ∀ k, maxBufSize * k < total → PieceOk total mem stream k

section
variable {stream image : List Byte} {sOffs : BitVec 32} {total k i : Nat} {mem : Mem}
  {flash : SpiFlash}

theorem dataByte_piece (hi : i < maxBufSize) :
    dataByte stream (maxBufSize * k + i) = stream.getD (pieceAt k + i) 0 := by
  have hdiv : (maxBufSize * k + i) / maxBufSize = k := by
    rw [Nat.add_comm, Nat.add_mul_div_left i k (by decide), Nat.div_eq_of_lt hi, Nat.zero_add]
  have hmod : (maxBufSize * k + i) % maxBufSize = i := by
    rw [Nat.mul_add_mod_self_left, Nat.mod_eq_of_lt hi]
  rw [dataByte, hdiv, hmod]

theorem pieceOf_getD (hi : i < pieceLen total k) :
    (pieceOf total stream k).getD i 0 = dataByte stream (maxBufSize * k + i) := by
  rw [dataByte_piece (hi.trans_le (Nat.min_le_left ..)), pieceOf, List.getD_eq_getElem?_getD,
    List.getElem?_take_of_lt hi, List.getElem?_drop, List.getD_eq_getElem?_getD]

/-- The buffer after a piece. -/
theorem heldMem_piece (hlen : pieceAt k + pieceLen total k ≤ stream.length)
    (hi : i < pieceLen total k) :
    heldMem total mem stream (k + 1) i = dataByte stream (maxBufSize * k + i) := by
  have hpiece : (pieceOf total stream k).length = pieceLen total k := by
    rw [pieceOf, List.length_take, List.length_drop]
    omega
  rw [heldMem, Mem.copy, if_pos (by omega), Nat.sub_zero, pieceOf_getD hi]

/-- What a stream with an image has. -/
theorem Carries.spec (h : Carries stream image) (hk : maxBufSize * k < image.length) :
    pieceAt k + pieceLen image.length k + 4 ≤ stream.length ∧
      pieceOf image.length stream k = (image.drop (maxBufSize * k)).take maxBufSize ∧
      codeOf image.length stream k = (crc32 0 (pieceOf image.length stream k)).toNat := by
  have hpiece := h k hk
  have hlen : ((image.drop (maxBufSize * k)).take maxBufSize).length = pieceLen image.length k := by
    rw [List.length_take, List.length_drop]
    rfl
  have hdata : pieceOf image.length stream k = (image.drop (maxBufSize * k)).take maxBufSize := by
    have htake := congrArg (List.take (pieceLen image.length k)) hpiece
    rw [List.take_take, Nat.min_eq_left (Nat.le_add_right ..), ← hlen, List.take_left', hlen]
      at htake
    · exact htake
    · rfl
  refine ⟨?_, hdata, ?_⟩
  · have hall := congrArg List.length hpiece
    rw [List.length_append, hlen, length_leBytes, List.length_take, List.length_drop] at hall
    omega
  · have hdrop := congrArg (List.drop (pieceLen image.length k)) hpiece
    rw [List.drop_take, List.drop_drop, Nat.add_sub_cancel_left, ← hlen, List.drop_left', hlen]
      at hdrop
    · rw [codeOf, hdrop, ofLe_leBytes (crc32 0 _).isLt, hdata]
    · rfl

theorem Carries.image_eq (h : Carries stream image) : image = dataBytes image.length stream := by
  apply List.ext_getElem
  · simp only [dataBytes, List.length_map, List.length_range]
  · intro a ha ha'
    simp only [dataBytes, List.getElem_map, List.getElem_range]
    have hN : 0 < maxBufSize := by decide
    have hsplit : maxBufSize * (a / maxBufSize) + a % maxBufSize = a := Nat.div_add_mod a maxBufSize
    obtain ⟨-, hdata, -⟩ := h.spec (k := a / maxBufSize) (by omega)
    have hi : a % maxBufSize < pieceLen image.length (a / maxBufSize) := by
      have := Nat.mod_lt a hN
      unfold pieceLen
      omega
    have hbyte : (pieceOf image.length stream (a / maxBufSize)).getD (a % maxBufSize) 0 =
        dataByte stream (maxBufSize * (a / maxBufSize) + a % maxBufSize) := pieceOf_getD hi
    rw [hsplit, hdata, List.getD_eq_getElem?_getD, List.getElem?_take_of_lt (Nat.mod_lt a hN),
      List.getElem?_drop, hsplit, List.getElem?_eq_getElem ha, Option.getD_some] at hbyte
    exact hbyte

/-- A streamed image of one piece is accepted. -/
theorem Carries.accepted (h : Carries stream image) (hlen : image.length ≤ maxBufSize)
    (mem : Mem) : Accepted image.length mem stream := by
  refine ⟨hlen.trans (by decide), fun k hk => ?_⟩
  obtain rfl : k = 0 := by
    unfold maxBufSize at hk hlen
    omega
  obtain ⟨hall, -, hcode⟩ := h.spec hk
  have hpiece : (pieceOf image.length stream 0).length = pieceLen image.length 0 := by
    rw [pieceOf, List.length_take, List.length_drop]
    omega
  refine ⟨hall, ?_, fun h0 => absurd h0 (lt_irrefl 0)⟩
  have hend : min (pieceEnd image.length 0) maxBufSize =
      (pieceOf image.length stream 0).length := by
    rw [hpiece, pieceEnd, Nat.mul_zero, Nat.zero_add]
    exact Nat.min_eq_left (Nat.min_le_left ..)
  rw [hcode, hend, heldMem, Mem.read_copy]

/-- What is on the flash when the last piece has been left. -/
theorem UpdateCtrl.LastLeft.read_iff {u : UpdateCtrl} {j : Nat}
    (h : u.LastLeft sOffs total (heldMem total mem stream (j + 1)) j)
    (hj : maxBufSize * j < total) (hend : pieceEnd total j = total)
    (hlen : pieceAt j + pieceLen total j ≤ stream.length) :
    u.flash.read sOffs total = dataBytes total stream ↔
      ∀ a, a < lastPiece total → dataByte stream a = 0xFF := by
  have hlast : lastPiece total = maxBufSize * j := by
    have hle : total ≤ maxBufSize * j + maxBufSize := by
      unfold pieceEnd pieceLen at hend
      omega
    have hdiv : (total - 1) / maxBufSize = j :=
      Nat.div_eq_of_lt_le (by rw [Nat.mul_comm]; omega)
        (by rw [Nat.add_mul, Nat.one_mul, Nat.mul_comm]; omega)
    rw [lastPiece, hdiv]
  have hread : u.flash.read sOffs total = dataBytes total stream ↔
      ∀ a, a < total → u.flash (sOffs + BitVec.ofNat 32 a) = dataByte stream a := by
    unfold SpiFlash.read dataBytes
    rw [List.map_inj_left]
    simp only [List.mem_range]
  rw [hread, hlast]
  constructor
  · intro hall a ha
    have hflash := h a (by omega)
    rw [if_neg (by omega), hall a (by omega)] at hflash
    exact hflash
  · intro hblank a ha
    rw [h a (by omega)]
    split
    · rename_i hin
      rw [heldMem_piece hlen (i := a - maxBufSize * j) (by unfold pieceEnd at hend; omega),
        Nat.add_sub_cancel' hin]
    · exact (hblank a (by omega)).symm

/-- An update whose pieces are accepted. -/
theorem handleUpdate_accepted (h0 : 0 < total) (h : Accepted total mem stream) :
    ∃ u, handleUpdate sOffs total mem flash stream = some (u, i32 total) ∧ i32 total ≠ -1 ∧
      (u.flash.read sOffs total = dataBytes total stream ↔
        ∀ a, a < lastPiece total → dataByte stream a = 0xFF) := by
  obtain ⟨hfit, hall⟩ := h
  obtain ⟨erased, herased, hle, hlt⟩ := eraseSize_some (by decide) (dvd_refl _) hfit
  have hstart : (⟨sOffs, total, 0, 0, 0, mem, flash⟩ : UpdateCtrl).Holds sOffs total
      (heldMem total mem stream 0) (maxBufSize * 0) := ⟨rfl, rfl, rfl, rfl, rfl⟩
  obtain ⟨u, j, hrun, hj, hend, hleft⟩ := (hstart.updateLoop (by omega) hle hlt).1 fun j _ => hall j
  refine ⟨u, ?_, ?_, hleft.read_iff hj hend ?_⟩
  · unfold handleUpdate
    rw [herased]
    exact hrun
  · unfold i32
    rw [Int.bmod_def]
    unfold spiFlashSectorSize at hfit
    omega
  · have := (hall j hj).all
    omega

/-- An update with a piece that is not. -/
theorem handleUpdate_refused (h0 : 0 < total) (h : ¬ Accepted total mem stream)
    {u : UpdateCtrl} {ret : Int}
    (hrun : handleUpdate sOffs total mem flash stream = some (u, ret)) : ret = -1 := by
  by_cases hfit : total ≤ 2 ^ 32 - spiFlashSectorSize
  · obtain ⟨erased, herased, hle, hlt⟩ := eraseSize_some (by decide) (dvd_refl _) hfit
    have hstart : (⟨sOffs, total, 0, 0, 0, mem, flash⟩ : UpdateCtrl).Holds sOffs total
        (heldMem total mem stream 0) (maxBufSize * 0) := ⟨rfl, rfl, rfl, rfl, rfl⟩
    obtain ⟨k, hk, hnot⟩ : ∃ k, maxBufSize * k < total ∧ ¬ PieceOk total mem stream k := by
      by_contra hnone
      refine h ⟨hfit, fun k hk => ?_⟩
      by_contra hnot
      exact hnone ⟨k, hk, hnot⟩
    unfold handleUpdate at hrun
    rw [herased] at hrun
    exact (hstart.updateLoop (by omega) hle hlt).2 k (Nat.zero_le k) hk hnot u ret hrun
  · unfold handleUpdate at hrun
    rw [eraseSize_none (by decide) (dvd_refl _) (not_le.mp hfit)] at hrun
    cases hrun

/-- **When an update is right**. -/
theorem updateRight_iff (h0 : 0 < total) :
    UpdateRight sOffs total mem flash stream ↔
      total ≤ maxBufSize ∨
        ((Accepted total mem stream → ∀ a, a < lastPiece total → dataByte stream a = 0xFF) ∧
          (¬ Accepted total mem stream →
            ∀ image : List Byte, image.length = total → ¬ Carries stream image)) := by
  by_cases hok : Accepted total mem stream
  · obtain ⟨u, hrun, hret, hread⟩ := @handleUpdate_accepted stream sOffs total mem flash h0 hok
    have hright : UpdateRight sOffs total mem flash stream ↔
        u.flash.read sOffs total = dataBytes total stream := by
      constructor
      · intro h
        exact h.2 u _ hrun hret
      · intro h
        refine ⟨fun image hlen hcarries => ⟨u, _, hrun, hret, ?_⟩, fun u' ret hrun' _ => ?_⟩
        · rw [h, ← hlen, ← hcarries.image_eq]
        · obtain ⟨rfl, -⟩ := Prod.mk.inj (Option.some.inj (hrun.symm.trans hrun'))
          exact h
    rw [hright, hread]
    simp only [hok, true_implies, not_true, false_implies, and_true]
    constructor
    · exact .inr
    · rintro (hsmall | hblank)
      · intro a ha
        unfold lastPiece maxBufSize at ha
        unfold maxBufSize at hsmall
        omega
      · exact hblank
  · have hright : UpdateRight sOffs total mem flash stream ↔
        ∀ image : List Byte, image.length = total → ¬ Carries stream image := by
      constructor
      · intro h image hlen hcarries
        obtain ⟨u, ret, hrun, hret, -⟩ := h.1 image hlen hcarries
        exact hret (handleUpdate_refused h0 hok hrun)
      · intro h
        refine ⟨fun image hlen hcarries => absurd hcarries (h image hlen), ?_⟩
        intro u ret hrun hret
        exact absurd (handleUpdate_refused h0 hok hrun) hret
    rw [hright]
    simp only [hok, false_implies, true_and, not_false_eq_true, true_implies]
    constructor
    · exact .inr
    · rintro (hsmall | hnone)
      · intro image hlen hcarries
        refine hok ?_
        rw [← hlen]
        exact hcarries.accepted (hlen ▸ hsmall) mem
      · exact hnone

/-- Behind the first piece only 0xFF bytes are accepted, up to 2 GiB. -/
theorem Accepted.blank (h : Accepted total mem stream) (hk : maxBufSize * k < total) (h0 : 0 < k)
    (h31 : total < 2 ^ 31) (hi : i < pieceLen total k) :
    dataByte stream (maxBufSize * k + i) = 0xFF := by
  have hpiece := h.2 k hk
  have hle : pieceEnd total k ≤ total := by
    unfold pieceEnd pieceLen
    omega
  have hend : i < pieceEnd total k := by
    unfold pieceEnd
    omega
  have hlen : pieceAt k + pieceLen total k ≤ stream.length := by
    have := hpiece.all
    omega
  have hblank := hpiece.blank h0 (by rw [i32_eq_self (by omega) (by omega)]; omega) i hend
  rwa [heldMem_piece hlen hi] at hblank

end

/-! ### Blank images -/

/-- A piece of 0xFF bytes with its CRC. -/
def blankPiece : List Byte :=
  List.replicate maxBufSize 0xFF ++ leBytes 4 (crc32 0 (List.replicate maxBufSize 0xFF)).toNat

def blankStream (n : Nat) : List Byte := (List.replicate n blankPiece).flatten

theorem length_blankPiece : blankPiece.length = maxBufSize + 4 := by
  rw [blankPiece, List.length_append, List.length_replicate, length_leBytes]

theorem drop_blankStream (k n : Nat) : (blankStream (k + n)).drop (pieceAt k) = blankStream n := by
  induction k with
  | zero => rw [pieceAt, Nat.mul_zero, List.drop_zero, Nat.zero_add]
  | succ k ih =>
    have hat : pieceAt (k + 1) = blankPiece.length + pieceAt k := by
      rw [length_blankPiece, pieceAt, pieceAt, Nat.mul_succ, Nat.add_comm]
    rw [Nat.add_right_comm, blankStream, List.replicate_succ, List.flatten_cons, hat,
      ← List.drop_drop, List.drop_left]
    exact ih

theorem blank_piece {k n : Nat} (hk : k < n) :
    ((List.replicate (maxBufSize * n) (0xFF : Byte)).drop (maxBufSize * k)).take maxBufSize =
      List.replicate maxBufSize 0xFF := by
  rw [List.drop_replicate, List.take_replicate, ← Nat.mul_sub, Nat.min_eq_left]
  exact Nat.le_mul_of_pos_right _ (by omega)

theorem carries_blankStream (n : Nat) :
    Carries (blankStream n) (List.replicate (maxBufSize * n) 0xFF) := by
  intro k hk
  rw [List.length_replicate] at hk ⊢
  have hkn : k < n := Nat.lt_of_mul_lt_mul_left hk
  have hlen : pieceLen (maxBufSize * n) k + 4 = blankPiece.length := by
    rw [length_blankPiece, pieceLen, ← Nat.mul_sub, Nat.min_eq_left]
    exact Nat.le_mul_of_pos_right _ (by omega)
  obtain ⟨m, rfl⟩ : ∃ m, n = k + (m + 1) := ⟨n - k - 1, by omega⟩
  rw [drop_blankStream, blank_piece hkn, hlen, blankStream, List.replicate_succ, List.flatten_cons,
    List.take_left]
  rfl

section
variable {stream : List Byte} {n : Nat}

theorem heldMem_blank (h : Carries stream (List.replicate (maxBufSize * n) 0xFF)) {k : Nat}
    (hk : k ≤ n) : heldMem (maxBufSize * n) (fun _ => 0xFF) stream k = fun _ => 0xFF := by
  induction k with
  | zero => rfl
  | succ k ih =>
    have hlt : maxBufSize * k < (List.replicate (maxBufSize * n) (0xFF : Byte)).length := by
      rw [List.length_replicate]
      exact Nat.mul_lt_mul_of_pos_left hk (by decide)
    obtain ⟨-, hpiece, -⟩ := h.spec hlt
    rw [List.length_replicate, blank_piece hk] at hpiece
    rw [heldMem, ih (by omega), hpiece]
    funext i
    unfold Mem.copy
    split
    · rename_i hi
      rw [List.length_replicate] at hi
      rw [List.getD_eq_getElem?_getD, List.getElem?_replicate_of_lt (by omega), Option.getD_some]
    · rfl

/-- Whole pieces of 0xFF bytes are accepted, with 0xFF bytes in the buffer and behind it. -/
theorem Carries.accepted_blank (h : Carries stream (List.replicate (maxBufSize * n) 0xFF))
    (hn : maxBufSize * n ≤ 2 ^ 32 - spiFlashSectorSize) :
    Accepted (maxBufSize * n) (fun _ => 0xFF) stream := by
  refine ⟨hn, fun k hk => ?_⟩
  have hkn : k < n := Nat.lt_of_mul_lt_mul_left hk
  obtain ⟨hall, hpiece, hcode⟩ := h.spec (k := k) (by rwa [List.length_replicate])
  rw [List.length_replicate] at hall hpiece hcode
  rw [blank_piece hkn] at hpiece
  have hheld := heldMem_blank h (k := k + 1) hkn
  refine ⟨hall, ?_, fun _ _ i _ => by rw [hheld]⟩
  have hend : min (pieceEnd (maxBufSize * n) k) maxBufSize = maxBufSize := by
    rw [pieceEnd, pieceLen, ← Nat.mul_sub,
      Nat.min_eq_left (Nat.le_mul_of_pos_right _ (by omega : 0 < n - k))]
    exact Nat.min_eq_right (Nat.le_add_left ..)
  have hread : Mem.read (fun _ => 0xFF) 0 maxBufSize = List.replicate maxBufSize 0xFF := by
    simp [Mem.read]
  rw [hheld, hend, hread, hcode, hpiece]

end

/-- Two pieces of 0xFF bytes. -/
theorem updateRight_blank : Carries (blankStream 2) (List.replicate (maxBufSize * 2) 0xFF) ∧
    UpdateRight 0x49000 (maxBufSize * 2) (fun _ => 0xFF) (fun _ => 0) (blankStream 2) := by
  have hcarries := carries_blankStream 2
  refine ⟨hcarries, (updateRight_iff (by decide)).2 (.inr ⟨fun _ a ha => ?_, fun hnot => ?_⟩)⟩
  · have hmem : dataByte (blankStream 2) a ∈ List.replicate (maxBufSize * 2) (0xFF : Byte) := by
      rw [hcarries.image_eq, List.length_replicate]
      exact List.mem_map_of_mem (List.mem_range.mpr (ha.trans (by decide)))
    exact List.eq_of_mem_replicate hmem
  · exact absurd (hcarries.accepted_blank (by decide)) hnot

/-- One byte more than the buffer holds, all zero. -/
def longImage : List Byte := List.replicate (maxBufSize + 1) 0

def longStream : List Byte :=
  List.replicate maxBufSize 0 ++ leBytes 4 (crc32 0 (List.replicate maxBufSize 0)).toNat ++
    ([0] ++ leBytes 4 (crc32 0 [0]).toNat)

theorem carries_longStream : Carries longStream longImage := by
  intro k hk
  have hlen : longImage.length = maxBufSize + 1 := List.length_replicate
  have hfirst : (List.replicate maxBufSize (0 : Byte) ++
      leBytes 4 (crc32 0 (List.replicate maxBufSize 0)).toNat).length = maxBufSize + 4 := by
    rw [List.length_append, List.length_replicate, length_leBytes]
  rw [hlen] at hk ⊢
  have hcases : k = 0 ∨ k = 1 := by
    unfold maxBufSize at hk
    omega
  rcases hcases with rfl | rfl
  · have hpiece : (longImage.drop (maxBufSize * 0)).take maxBufSize =
        List.replicate maxBufSize 0 := by
      rw [Nat.mul_zero, List.drop_zero, longImage, List.take_replicate, Nat.min_eq_left (by omega)]
    have hplen : pieceLen (maxBufSize + 1) 0 = maxBufSize := rfl
    rw [hpiece, hplen, pieceAt, Nat.mul_zero, List.drop_zero, longStream, ← hfirst, List.take_left]
  · have hpiece : (longImage.drop (maxBufSize * 1)).take maxBufSize = [0] := by
      rw [Nat.mul_one, longImage, List.drop_replicate, Nat.add_sub_cancel_left]
      rfl
    have hplen : pieceLen (maxBufSize + 1) 1 = 1 := rfl
    rw [hpiece, hplen, pieceAt, Nat.mul_one, longStream, ← hfirst, List.drop_left]
    rfl

/-- **An image longer than the buffer**: the update fails. -/
theorem not_updateRight_longImage :
    (∀ pqBinaryStart fbcFactoryStart,
        legalAddress pqBinaryStart fbcFactoryStart 0x49000 longImage.length = true) ∧
      Carries longStream longImage ∧
      ¬ UpdateRight 0x49000 longImage.length (fun _ => 0) (fun _ => 0xFF) longStream := by
  have hlen : longImage.length = maxBufSize + 1 := List.length_replicate
  refine ⟨fun pqBinaryStart fbcFactoryStart => ?_, carries_longStream, fun h => ?_⟩
  · rw [hlen, legalAddress, decide_eq_true_eq]
    exact .inr (.inl ⟨by decide, by decide⟩)
  obtain ⟨u, ret, hrun, hret, -⟩ := h.1 longImage rfl carries_longStream
  have hnot : ¬ Accepted longImage.length (fun _ => 0) longStream := by
    rw [hlen]
    intro hok
    have hblank := hok.blank (k := 1) (i := 0) (by decide) (by decide) (by decide) (by decide)
    have hbyte : dataByte longStream (maxBufSize * 1 + 0) = 0 := by
      have hmem : dataByte longStream (maxBufSize * 1 + 0) ∈ longImage := by
        rw [carries_longStream.image_eq, hlen]
        exact List.mem_map_of_mem (List.mem_range.mpr (by decide))
      exact List.eq_of_mem_replicate hmem
    rw [hbyte] at hblank
    cases hblank
  exact hret (handleUpdate_refused (hlen ▸ Nat.succ_pos _) hnot hrun)

end VendorAmlogic.Fbc
