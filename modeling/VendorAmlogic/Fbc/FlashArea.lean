import VendorAmlogic.Fbc.ImageStream

/-!
# Where an update writes

The erases and writes that `handle_update` issues for an accepted `upgrade`
command, and the sectors they touch. `illegal_address_check` looks at the last
byte of the image; what is erased is rounded up to sectors, and a sector is
erased whole (of what that blanks besides nothing is compared with an image).
An update of no bytes takes pieces until the counter wraps.
-/

namespace VendorAmlogic.Fbc

open VendorAmlogic.Lib

/-! ## Operations -/

/-- `spi_flash_erase` or `spi_flash_write`, with the range. -/
inductive FlashOp where
  | erase (offset : BitVec 32) (len : Nat)
  | write (offset : BitVec 32) (len : Nat)

namespace FlashOp

def offset : FlashOp → BitVec 32
  | erase offset _ => offset
  | write offset _ => offset

def len : FlashOp → Nat
  | erase _ len => len
  | write _ len => len

/-- A sector with a byte of the range. -/
def Touches (op : FlashOp) (sector : Nat) : Prop :=
  ∃ i, i < op.len ∧ (op.offset + BitVec.ofNat 32 i).toNat / spiFlashSectorSize = sector

end FlashOp

namespace UpdateCtrl

def programOps (u : UpdateCtrl) (erased n : Nat) : List FlashOp :=
  [.erase u.sOffs erased, .write (u.sOffs + BitVec.ofNat 32 u.writeSpiCnt) n]

/-- What `rewrite` issues. -/
def rewriteOps (erased n : Nat) : Nat → UpdateCtrl → List FlashOp
  | left, u =>
    let ops := u.programOps erased n
    let u := u.program erased n
    if u.handleCheck then ops
    else
      let u := { u with dRewriteCnt := u.dRewriteCnt + 1 }
      match left with
      | 0 => ops
      | left + 1 =>
        ops ++ rewriteOps erased n left { u with writeSpiCnt := u32 (u.writeSpiCnt - n) }

/-- What `receive` issues. -/
def receiveOps (u : UpdateCtrl) (erased : Nat) (stream : List Byte) : List FlashOp :=
  match u.readPiece 0 stream with
  | none => []
  | some (u, n, stream) =>
    match readCrc stream with
    | none => []
    | some (code, _) =>
      if u.bufCrc.toNat ≠ code then []
      else rewriteOps erased n (maxRewriteCnt - u.dRewriteCnt) u

/-- What `updateLoop` issues, up to where the stream ends. -/
def updateOps (erased : Nat) (u : UpdateCtrl) (stream : List Byte) : List FlashOp :=
  u.receiveOps erased stream ++
    match _h : u.receive erased stream with
    | none => []
    | some (_, none) => []
    | some (u, some rest) => if u.receivedCnt = u.total then [] else updateOps erased u rest
termination_by stream.length
decreasing_by exact receive_length _h

end UpdateCtrl

/-- What `handle_update` issues. -/
def handleUpdateOps (sOffs : BitVec 32) (total : Nat) (mem : Mem) (flash : SpiFlash)
    (stream : List Byte) : List FlashOp :=
  match eraseSize total spiFlashSectorSize with
  | none => []
  | some erased => UpdateCtrl.updateOps erased ⟨sOffs, total, 0, 0, 0, mem, flash⟩ stream

/-! ## Areas -/

/-- An area, from its first byte to behind its last. -/
structure Area where
  start : Nat
  stop : Nat

/-- The areas of `illegal_address_check`. -/
def updatable : List Area :=
  [⟨Section.s0.infoOffset, Section.s0.infoOffset + sectionInfoSize⟩,
    ⟨Section.s0.offset, Section.s0.offset + sectionSize⟩,
    ⟨pqBinaryStart, fbcFactoryStart⟩]

def Updatable (sector : Nat) : Prop :=
  ∃ a ∈ updatable, a.start ≤ spiFlashSectorSize * sector ∧ spiFlashSectorSize * sector < a.stop

instance (sector : Nat) : Decidable (Updatable sector) :=
  inferInstanceAs (Decidable (∃ a ∈ updatable, _))

/-- An accepted `upgrade` command touches updatable sectors only. -/
def Stays (offset size : BitVec 32) : Prop :=
  legalAddress pqBinaryStart fbcFactoryStart offset.toNat size.toNat = true →
    ∀ mem flash stream, ∀ op ∈ handleUpdateOps offset size.toNat mem flash stream,
      ∀ sector, op.Touches sector → Updatable sector

/-- What an image takes, in whole sectors. -/
def sectorBytes (size : Nat) : Nat :=
  spiFlashSectorSize * ((size + spiFlashSectorSize - 1) / spiFlashSectorSize)

/-- As many bytes as an image takes in whole sectors are in one area. -/
def Inside (offset size : Nat) : Prop :=
  ∃ a ∈ updatable, a.start ≤ offset ∧ offset + sectorBytes size ≤ a.stop

section
variable {op : FlashOp} {u u1 : UpdateCtrl} {stream rest : List Byte} {sOffs : BitVec 32}
  {total n k erased left : Nat} {mem : Mem}

/-- An operation within the first `erased` bytes from `sOffs` on. -/
def FlashOp.Within (op : FlashOp) (sOffs : BitVec 32) (erased : Nat) : Prop :=
  ∃ j, op.offset = sOffs + BitVec.ofNat 32 j ∧ j + op.len ≤ erased

theorem updatable_aligned : ∀ a ∈ updatable,
    spiFlashSectorSize ∣ a.start ∧ spiFlashSectorSize ∣ a.stop ∧ a.stop ≤ configSpiSize := by
  decide

theorem FlashOp.Within.updatable {a : Area} {sector : Nat} (h : op.Within sOffs erased)
    (ha : a ∈ updatable) (hstart : a.start ≤ sOffs.toNat) (hstop : sOffs.toNat + erased ≤ a.stop)
    (ht : op.Touches sector) : Updatable sector := by
  obtain ⟨j, ho, hj⟩ := h
  obtain ⟨i, hi, rfl⟩ := ht
  obtain ⟨⟨m, hm⟩, ⟨m', hm'⟩, hlt⟩ := updatable_aligned a ha
  have haddr : (op.offset + BitVec.ofNat 32 i).toNat = sOffs.toNat + j + i := by
    rw [ho, BitVec.add_assoc, ← BitVec.ofNat_add, BitVec.toNat_add, BitVec.toNat_ofNat]
    unfold configSpiSize at hlt
    omega
  refine ⟨a, ha, ?_⟩
  rw [haddr]
  unfold spiFlashSectorSize at *
  omega

/-! ## The operations of a run -/

namespace UpdateCtrl

theorem programOps_within (hw : u.writeSpiCnt + n ≤ erased) (h : op ∈ u.programOps erased n) :
    op.Within u.sOffs erased := by
  simp only [programOps, List.mem_cons, List.not_mem_nil, or_false] at h
  rcases h with rfl | rfl
  · exact ⟨0, (BitVec.add_zero _).symm, (Nat.zero_add erased).le⟩
  · exact ⟨u.writeSpiCnt, rfl, hw⟩

theorem rewriteOps_within (hw : u.writeSpiCnt + n ≤ erased) (he : erased < 2 ^ 32)
    (h : op ∈ rewriteOps erased n left u) : op.Within u.sOffs erased := by
  induction left generalizing u with
  | zero =>
    rw [rewriteOps] at h
    dsimp only at h
    rw [ite_self] at h
    exact programOps_within hw h
  | succ left ih =>
    have hback : u32 ((u.program erased n).writeSpiCnt - n) = u.writeSpiCnt := by
      rw [program_writeSpiCnt hw he, Nat.cast_add, add_sub_cancel_right]
      exact u32_natCast (by omega)
    have hnext (u1 : UpdateCtrl) (h : op ∈ rewriteOps erased n left u1)
        (hoffs : u1.sOffs = u.sOffs) (hcnt : u1.writeSpiCnt = u.writeSpiCnt) :
        op.Within u.sOffs erased := by
      rw [← hoffs]
      exact ih (by rwa [hcnt]) h
    rw [rewriteOps] at h
    dsimp only at h
    rw [hback] at h
    split at h
    · exact programOps_within hw h
    · rcases List.mem_append.mp h with h | h
      · exact programOps_within hw h
      · exact hnext _ h rfl rfl

theorem mem_rewriteOps (h : op ∈ u.programOps erased n) : op ∈ rewriteOps erased n left u := by
  rw [rewriteOps.eq_def]
  dsimp only
  split
  · exact h
  · split
    · exact h
    · exact List.mem_append_left _ h

theorem receiveOps_eq (hread : u.readPiece 0 stream = some (u1, n, rest)) :
    u.receiveOps erased stream =
      if rest.length < 4 then []
      else if u1.bufCrc.toNat ≠ ofLe (rest.take 4) then []
      else rewriteOps erased n (maxRewriteCnt - u1.dRewriteCnt) u1 := by
  unfold receiveOps
  rw [hread]
  dsimp only
  rw [readCrc_eq]
  by_cases hlen : rest.length < 4
  · rw [if_pos hlen, if_pos hlen]
  · rw [if_neg hlen, if_neg hlen]

/-- A piece with its CRC is written. -/
theorem mem_receiveOps (hread : u.readPiece 0 stream = some (u1, n, rest)) (hlen : 4 ≤ rest.length)
    (hcrc : u1.bufCrc.toNat = ofLe (rest.take 4)) (h : op ∈ u1.programOps erased n) :
    op ∈ u.receiveOps erased stream := by
  rw [receiveOps_eq hread, if_neg (not_lt.mpr hlen), if_neg (not_not.mpr hcrc)]
  exact mem_rewriteOps h

theorem Holds.receiveOps_within
    (hu : u.Holds sOffs total (heldMem total mem stream k) (maxBufSize * k))
    (hk : maxBufSize * k < total) (ht : total ≤ erased) (he : erased < 2 ^ 32)
    (h : op ∈ u.receiveOps erased (stream.drop (pieceAt k))) : op.Within sOffs erased := by
  obtain ⟨hshort, hlong⟩ := hu.readPiece hk (by omega)
  by_cases hlen : (stream.drop (pieceAt k)).length < pieceLen total k
  · rw [receiveOps, hshort hlen] at h
    cases h
  · obtain ⟨u1, hread, -, hw1, -, ho1, -⟩ := hlong (not_lt.mp hlen)
    rw [receiveOps_eq hread] at h
    have hle : u1.writeSpiCnt + pieceLen total k ≤ erased := by
      unfold pieceLen
      omega
    split at h
    · cases h
    · split at h
      · cases h
      · exact ho1 ▸ rewriteOps_within hle he h

theorem updateOps_eq (erased : Nat) (u : UpdateCtrl) (stream : List Byte) :
    updateOps erased u stream = u.receiveOps erased stream ++
      match u.receive erased stream with
      | none => []
      | some (_, none) => []
      | some (u, some rest) =>
        if u.receivedCnt = u.total then [] else updateOps erased u rest := by
  rw [updateOps]
  congr 1
  split <;> rename_i h <;> rw [h]

/-- **A run of the loop** stays within what it erases. -/
theorem Holds.updateOps_within
    (hu : u.Holds sOffs total (heldMem total mem stream k) (maxBufSize * k))
    (hk : maxBufSize * k < total) (ht : total ≤ erased) (he : erased < 2 ^ 32)
    (h : op ∈ updateOps erased u (stream.drop (pieceAt k))) : op.Within sOffs erased := by
  induction hm : total - maxBufSize * k using Nat.strong_induction_on generalizing k u with
  | _ m ih =>
    obtain ⟨htaken, hrefused⟩ := hu.receive hk ht he
    rw [updateOps_eq] at h
    rcases List.mem_append.mp h with h | h
    · exact hu.receiveOps_within hk ht he h
    by_cases hok : PieceOk total mem stream k
    · obtain ⟨u1, hround, hu1, -⟩ := htaken hok
      rw [hround] at h
      dsimp only at h
      rw [hu1.received, hu1.total] at h
      by_cases hend : pieceEnd total k = total
      · rw [if_pos hend] at h
        cases h
      · rw [if_neg hend] at h
        obtain ⟨hmore, hnext, hat⟩ := pieceEnd_next hk hend
        rw [hat] at h
        have hN : maxBufSize * (k + 1) = maxBufSize * k + maxBufSize := Nat.mul_succ ..
        have hpos : 0 < maxBufSize := by decide
        exact ih _ (by omega) (hnext ▸ hu1) hmore h rfl
    · rcases hrefused hok with hwaits | ⟨u1, hround⟩
      · rw [hwaits] at h
        cases h
      · rw [hround] at h
        cases h

end UpdateCtrl

theorem eraseSize_eq {size : Nat} (hn : spiFlashSectorSize * n ≤ sectorBytes size)
    (hfit : size ≤ 2 ^ 32 - spiFlashSectorSize) :
    eraseSize size (spiFlashSectorSize * n) = some (sectorBytes size) := by
  induction hm : size - spiFlashSectorSize * n using Nat.strong_induction_on generalizing n with
  | _ m ih =>
    rw [eraseSize]
    by_cases hlt : spiFlashSectorSize * n < size
    · have hnext : spiFlashSectorSize * n + spiFlashSectorSize = spiFlashSectorSize * (n + 1) :=
        (Nat.mul_succ ..).symm
      rw [if_pos hlt, if_pos (by unfold spiFlashSectorSize at *; omega), hnext]
      refine ih _ ?_ ?_ rfl
      · unfold spiFlashSectorSize at *
        omega
      · unfold sectorBytes spiFlashSectorSize at *
        omega
    · rw [if_neg hlt]
      congr 1
      unfold sectorBytes spiFlashSectorSize at *
      omega

theorem le_sectorBytes (size : Nat) : size ≤ sectorBytes size := by
  unfold sectorBytes spiFlashSectorSize
  omega

theorem eraseSize_first {size : Nat} (h0 : 0 < size) (hfit : size ≤ 2 ^ 32 - spiFlashSectorSize) :
    eraseSize size spiFlashSectorSize = some (sectorBytes size) := by
  refine eraseSize_eq (n := 1) ?_ hfit
  unfold sectorBytes spiFlashSectorSize
  omega

/-- An update touches updatable sectors when what it erases lies in one area. -/
theorem stays_of_inside {size : BitVec 32} (h0 : 0 < size.toNat)
    (h : Inside sOffs.toNat size.toNat) : Stays sOffs size := by
  intro _ mem flash stream op hop sector ht
  obtain ⟨a, ha, hstart, hstop⟩ := h
  obtain ⟨-, -, hlt⟩ := updatable_aligned a ha
  have hle := le_sectorBytes size.toNat
  have hfit : sectorBytes size.toNat ≤ 2 ^ 32 - spiFlashSectorSize := by
    unfold configSpiSize at hlt
    unfold spiFlashSectorSize
    omega
  rw [handleUpdateOps, eraseSize_first h0 (hle.trans hfit)] at hop
  have hinit : (⟨sOffs, size.toNat, 0, 0, 0, mem, flash⟩ : UpdateCtrl).Holds sOffs size.toNat
      (heldMem size.toNat mem stream 0) (maxBufSize * 0) := ⟨rfl, rfl, rfl, rfl, rfl⟩
  have hin := hinit.updateOps_within h0 hle
    (hfit.trans_lt (Nat.sub_lt (by decide) (by decide))) hop
  exact hin.updatable ha hstart hstop ht

/-! ## Pieces with their CRC -/

/-- A piece with its CRC behind it. -/
def withCrc (piece : List Byte) : List Byte := piece ++ leBytes 4 (crc32 0 piece).toNat

namespace UpdateCtrl

/-- The state when a piece is in the buffer. -/
def hold (u : UpdateCtrl) (piece : List Byte) : UpdateCtrl :=
  { u with
    mem := u.mem.copy 0 piece
    receivedCnt := u.receivedCnt + piece.length }

@[simp] theorem programOps_hold (u : UpdateCtrl) (piece : List Byte) (erased n : Nat) :
    (u.hold piece).programOps erased n = u.programOps erased n := rfl

/-- A piece with its CRC is taken. -/
theorem readPiece_withCrc (piece rest : List Byte) (h0 : 0 < piece.length)
    (hN : piece.length ≤ maxBufSize) (hr : u.receivedCnt + piece.length < 2 ^ 32)
    (hend : piece.length = maxBufSize ∨ u.receivedCnt + piece.length = u.total)
    (hnot : ∀ j, 0 < j → j < piece.length → u.receivedCnt + j ≠ u.total)
    (hcnt : min (u.receivedCnt + piece.length) maxBufSize = piece.length) :
    u.readPiece 0 (withCrc piece ++ rest) =
        some (u.hold piece, piece.length, leBytes 4 (crc32 0 piece).toNat ++ rest) ∧
      4 ≤ (leBytes 4 (crc32 0 piece).toNat ++ rest).length ∧
      (u.hold piece).bufCrc.toNat = ofLe ((leBytes 4 (crc32 0 piece).toNat ++ rest).take 4) ∧
      (leBytes 4 (crc32 0 piece).toNat ++ rest).drop 4 = rest := by
  have hcode : (leBytes 4 (crc32 0 piece).toNat).length = 4 := length_leBytes ..
  have hcrc : (u.hold piece).bufCrc = crc32 0 piece := by
    have hlen : (if (u.hold piece).receivedCnt ≥ maxBufSize then maxBufSize
        else (u.hold piece).receivedCnt) = piece.length := by
      unfold hold
      dsimp only
      split <;> omega
    rw [bufCrc, hlen, hold, Mem.read_copy]
  refine ⟨?_, ?_, ?_, ?_⟩
  · rw [withCrc, List.append_assoc, readPiece_spec _ h0 (by omega) hr (by omega) hnot,
      if_neg (by rw [List.length_append]; omega), List.take_left, List.drop_left, Nat.zero_add]
    rfl
  · rw [List.length_append, hcode]
    exact Nat.le_add_right ..
  · rw [hcrc, List.take_left' hcode, ofLe_leBytes (crc32 0 piece).isLt]
  · exact List.drop_left' hcode

end UpdateCtrl

/-- What is erased when a first piece is taken. -/
theorem erase_issued (sOffs : BitVec 32) {size : Nat} (h0 : 0 < size)
    (hfit : size ≤ 2 ^ 32 - spiFlashSectorSize) (mem : Mem) (flash : SpiFlash) :
    .erase sOffs (sectorBytes size) ∈ handleUpdateOps sOffs size mem flash
      (withCrc (List.replicate (pieceLen size 0) 0xFF)) := by
  generalize hpiece : List.replicate (pieceLen size 0) (0xFF : Byte) = piece
  have hlen : piece.length = min maxBufSize size := by
    rw [← hpiece, List.length_replicate]
    rfl
  have hN : 0 < maxBufSize := by decide
  obtain ⟨hread, hall, hcrc, -⟩ := UpdateCtrl.readPiece_withCrc
    (u := ⟨sOffs, size, 0, 0, 0, mem, flash⟩) piece [] (by omega) (by omega)
    (by unfold spiFlashSectorSize at hfit; dsimp only; omega) (by dsimp only; omega)
    (by dsimp only; omega) (by dsimp only; omega)
  rw [List.append_nil] at hread
  rw [handleUpdateOps, eraseSize_first h0 hfit]
  dsimp only
  rw [UpdateCtrl.updateOps_eq]
  exact List.mem_append_left _ (UpdateCtrl.mem_receiveOps hread hall hcrc List.mem_cons_self)

theorem updatable_stop : ∀ a ∈ updatable, ¬ Updatable (a.stop / spiFlashSectorSize) := by
  decide

/-- Sectors in a row that are updatable are in one area. -/
theorem inside_of_stays {size : BitVec 32} (h0 : 0 < size.toNat)
    (hfit : size.toNat ≤ 2 ^ 32 - spiFlashSectorSize)
    (hlegal : legalAddress pqBinaryStart fbcFactoryStart sOffs.toNat size.toNat = true)
    (h : Stays sOffs size) : Inside sOffs.toNat size.toNat := by
  have hall : ∀ i, i < sectorBytes size.toNat →
      Updatable ((sOffs + BitVec.ofNat 32 i).toNat / spiFlashSectorSize) := by
    intro i hi
    exact h hlegal (fun _ => 0) (fun _ => 0) _ _ (erase_issued _ h0 hfit _ _) _ ⟨i, hi, rfl⟩
  have hle := le_sectorBytes size.toNat
  obtain ⟨a, ha, hstart, hstop⟩ := hall 0 (by omega)
  obtain ⟨-, ⟨m, hm⟩, hlt⟩ := updatable_aligned a ha
  rw [BitVec.add_zero] at hstart hstop
  refine ⟨a, ha, ?_, ?_⟩
  · unfold spiFlashSectorSize at hstart
    omega
  · by_contra hover
    have hbehind := hall (a.stop - sOffs.toNat) (by omega)
    have haddr : (sOffs + BitVec.ofNat 32 (a.stop - sOffs.toNat)).toNat = a.stop := by
      rw [BitVec.toNat_add, BitVec.toNat_ofNat]
      unfold spiFlashSectorSize configSpiSize at *
      omega
    rw [haddr] at hbehind
    exact updatable_stop a ha hbehind

/-! ## An update of no bytes -/

namespace UpdateCtrl

/-- All that is known is 0xFF, after `cnt` bytes. -/
def blankCtrl (sOffs : BitVec 32) (cnt : Nat) : UpdateCtrl :=
  ⟨sOffs, 0, cnt, cnt, 0, fun _ => 0xFF, fun _ => 0xFF⟩

def blankPiece : List Byte := List.replicate maxBufSize 0xFF

theorem length_blankPiece : blankPiece.length = maxBufSize := by
  rw [blankPiece, List.length_replicate]

theorem blankPiece_getD (i : Nat) (h : i < maxBufSize) : blankPiece.getD i 0 = 0xFF := by
  rw [blankPiece, List.getD_eq_getElem?_getD, List.getElem?_replicate_of_lt h, Option.getD_some]

theorem blankCtrl_hold : ((blankCtrl sOffs n).hold blankPiece).mem = fun _ => 0xFF := by
  funext i
  unfold hold Mem.copy
  dsimp only
  split
  · rename_i h
    exact blankPiece_getD _ (by rw [blankPiece, List.length_replicate] at h; omega)
  · rfl

/-- Writing blank bytes leaves a blank flash. -/
theorem program_blank (hm : u.mem = fun _ => 0xFF) (hf : u.flash = fun _ => 0xFF) :
    (u.program erased n).flash = fun _ => 0xFF := by
  funext a
  unfold program SpiFlash.write SpiFlash.erase
  rw [hm, hf, Mem.length_read]
  dsimp only
  split
  · rename_i h
    exact Mem.getD_read h
  · exact ite_self _

theorem blankCtrl_program (hk : k < 0x1000) :
    ((blankCtrl sOffs (maxBufSize * k)).hold blankPiece).program erased maxBufSize =
      blankCtrl sOffs (maxBufSize * (k + 1)) := by
  have hN : maxBufSize * (k + 1) = maxBufSize * k + maxBufSize := Nat.mul_succ ..
  have hcnt : u32 ((maxBufSize * k : Nat) + (maxBufSize : Nat)) = maxBufSize * (k + 1) := by
    rw [hN]
    have h := u32_natCast (n := maxBufSize * k + maxBufSize) (by unfold maxBufSize; omega)
    rwa [Nat.cast_add] at h
  have hblank : ((blankCtrl sOffs (maxBufSize * k)).hold blankPiece).flash = fun _ => 0xFF := rfl
  have hfields (u : UpdateCtrl) (n : Nat) : u.program erased n =
      ⟨u.sOffs, u.total, u.receivedCnt, u32 (u.writeSpiCnt + n), u.dRewriteCnt, u.mem,
        (u.program erased n).flash⟩ := rfl
  rw [hfields, program_blank blankCtrl_hold hblank, blankCtrl_hold]
  unfold hold blankCtrl
  dsimp only
  rw [hcnt, length_blankPiece, hN]

/-- A blank piece is taken, and what was written is found. -/
theorem blankCtrl_receive (sOffs : BitVec 32) (erased : Nat) (rest : List Byte) (hk : k < 0x1000) :
    (∀ op ∈ (blankCtrl sOffs (maxBufSize * k)).programOps erased maxBufSize,
      op ∈ (blankCtrl sOffs (maxBufSize * k)).receiveOps erased (withCrc blankPiece ++ rest)) ∧
    (blankCtrl sOffs (maxBufSize * k)).receive erased (withCrc blankPiece ++ rest) =
      some (blankCtrl sOffs (maxBufSize * (k + 1)), some rest) := by
  have hlen := length_blankPiece
  have hN : maxBufSize = 0x10000 := rfl
  have hcnt : (blankCtrl sOffs (maxBufSize * k)).receivedCnt = maxBufSize * k := rfl
  have htotal : (blankCtrl sOffs (maxBufSize * k)).total = 0 := rfl
  obtain ⟨hread, hall, hcrc, hrest⟩ := readPiece_withCrc
    (u := blankCtrl sOffs (maxBufSize * k)) blankPiece rest (by omega) (by omega)
    (by unfold maxBufSize at *; omega) (.inl hlen) (by omega) (by omega)
  rw [hlen] at hread
  refine ⟨fun op hop => mem_receiveOps hread hall hcrc (by rwa [programOps_hold]), ?_⟩
  have hcheck : (((blankCtrl sOffs (maxBufSize * k)).hold blankPiece).program erased
      maxBufSize).handleCheck = true := by
    rw [blankCtrl_program hk]
    unfold handleCheck
    exact checkLoop_iff.mpr fun _ _ => rfl
  rw [receive_eq hread, if_neg (not_lt.mpr hall), if_neg (not_not.mpr hcrc), hrest, rewrite,
    if_pos hcheck, blankCtrl_program hk]
  rfl

/-- So many blank pieces. -/
def blankStream : Nat → List Byte
  | 0 => []
  | m + 1 => withCrc blankPiece ++ blankStream m

/-- Piece after piece is written. -/
theorem blankCtrl_updateOps {m j : Nat} (hj : k ≤ j) (hm : j < k + m) (hkm : k + m ≤ 0x1000) :
    .write (sOffs + BitVec.ofNat 32 (maxBufSize * j)) maxBufSize ∈
      updateOps erased (blankCtrl sOffs (maxBufSize * k)) (blankStream m) := by
  induction m generalizing k with
  | zero => omega
  | succ m ih =>
    obtain ⟨hops, hround⟩ := blankCtrl_receive (k := k) sOffs erased (blankStream m)
      (by omega)
    rw [updateOps_eq, blankStream, hround]
    rcases Nat.eq_or_lt_of_le hj with rfl | hlt
    · exact List.mem_append_left _ (hops _ (List.mem_cons_of_mem _ List.mem_cons_self))
    · have hmore : (blankCtrl sOffs (maxBufSize * (k + 1))).receivedCnt ≠
          (blankCtrl sOffs (maxBufSize * (k + 1))).total := by
        unfold blankCtrl maxBufSize
        dsimp only
        omega
      dsimp only
      rw [if_neg hmore]
      exact List.mem_append_right _ (ih hlt (by omega) (by omega))

end UpdateCtrl

/-- Behind each area there is a sector that is not updatable, less than 1 MiB away. -/
theorem exists_not_updatable (sOffs : BitVec 32) : ∃ i, i < 0x100000 ∧
    ¬ Updatable ((sOffs + BitVec.ofNat 32 i).toNat / spiFlashSectorSize) := by
  by_cases h0 : Updatable (sOffs.toNat / spiFlashSectorSize)
  · obtain ⟨a, ha, hstart, hstop⟩ := h0
    obtain ⟨-, ⟨m, hm⟩, hlt⟩ := updatable_aligned a ha
    have hshort : ∀ a ∈ updatable, a.stop - a.start ≤ 0xAD000 := by decide
    have hlen := hshort a ha
    refine ⟨a.stop - sOffs.toNat, ?_, ?_⟩
    · unfold spiFlashSectorSize at *
      omega
    · have haddr : (sOffs + BitVec.ofNat 32 (a.stop - sOffs.toNat)).toNat = a.stop := by
        rw [BitVec.toNat_add, BitVec.toNat_ofNat]
        unfold spiFlashSectorSize configSpiSize at *
        omega
      rw [haddr]
      exact updatable_stop a ha
  · exact ⟨0, by decide, by rwa [BitVec.add_zero]⟩

/-- An update of no bytes does not end with its area. -/
theorem not_stays_zero
    (hlegal : legalAddress pqBinaryStart fbcFactoryStart sOffs.toNat 0 = true) :
    ¬ Stays sOffs 0 := by
  intro h
  obtain ⟨i, hi, hnot⟩ := exists_not_updatable sOffs
  have hsplit : maxBufSize * (i / maxBufSize) + i % maxBufSize = i := Nat.div_add_mod i maxBufSize
  have hpiece : i % maxBufSize < maxBufSize := Nat.mod_lt i (by decide)
  have hop : .write (sOffs + BitVec.ofNat 32 (maxBufSize * (i / maxBufSize))) maxBufSize ∈
      handleUpdateOps sOffs 0 (fun _ => 0xFF) (fun _ => 0xFF) (UpdateCtrl.blankStream 16) := by
    have herased : eraseSize 0 spiFlashSectorSize = some spiFlashSectorSize := by
      rw [eraseSize, if_neg (Nat.not_lt_zero _)]
    rw [handleUpdateOps, herased]
    exact UpdateCtrl.blankCtrl_updateOps (k := 0) (m := 16) (Nat.zero_le _)
      (by unfold maxBufSize; omega) (by decide)
  refine hnot (h hlegal _ _ _ _ hop _ ⟨i % maxBufSize, hpiece, ?_⟩)
  rw [FlashOp.offset, BitVec.add_assoc, ← BitVec.ofNat_add, hsplit]

end

/-- **When an update stays inside the updatable flash**. -/
theorem stays_iff (offset size : BitVec 32) :
    Stays offset size ↔
      (legalAddress pqBinaryStart fbcFactoryStart offset.toNat size.toNat = true →
        2 ^ 32 - spiFlashSectorSize < size.toNat ∨
          (0 < size.toNat ∧ Inside offset.toNat size.toNat)) := by
  constructor
  · intro h hlegal
    by_cases hfit : size.toNat ≤ 2 ^ 32 - spiFlashSectorSize
    · refine .inr ?_
      by_cases h0 : size = 0
      · subst h0
        exact absurd h (not_stays_zero hlegal)
      · have hpos : 0 < size.toNat := by
          have := mt BitVec.eq_of_toNat_eq h0
          change size.toNat ≠ 0 at this
          omega
        exact ⟨hpos, inside_of_stays hpos hfit hlegal h⟩
    · exact .inl (by omega)
  · intro h hlegal
    rcases h hlegal with hlong | ⟨hpos, hin⟩
    · -- the erase size wraps for ever
      intro mem flash stream op hop
      rw [handleUpdateOps, eraseSize_none (by decide) (dvd_refl _) hlong] at hop
      cases hop
    · exact stays_of_inside hpos hin hlegal

/-- **An image from the middle of a sector on**: the first sector of section 1 is erased. -/
theorem not_stays_middle :
    legalAddress pqBinaryStart fbcFactoryStart 0xF5800 0x800 = true ∧ ¬ Stays 0xF5800 0x800 := by
  refine ⟨by decide, fun h => ?_⟩
  have hop := erase_issued 0xF5800 (show 0 < 0x800 by decide) (by decide)
    (fun _ => 0) (fun _ => 0xFF)
  have hsector : Updatable (0xF6000 / spiFlashSectorSize) :=
    h (by decide) _ _ _ _ hop _ ⟨0x800, by decide, by decide⟩
  exact absurd hsector (by decide)

end VendorAmlogic.Fbc
