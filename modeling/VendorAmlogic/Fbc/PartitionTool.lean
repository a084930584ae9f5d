import VendorAmlogic.Lib.NibbleCrc
import VendorAmlogic.Fbc.Flash

/-!
# Partition headers

`tool/add_partition_info.c`: the CRC over the input files, and the regions of
each partition. The regions of a partition are one behind the other in the
flash, so the check sees one message, which is what the tool saw file by file.
-/

namespace VendorAmlogic.Fbc

open VendorAmlogic.Lib

namespace Tool

/-! ## The tool -/

/-- A file, as `fread` returns it piece by piece. -/
abbrev InFile := List (List Byte)

def InFile.contents (file : InFile) : List Byte := file.flatten

/-- `file_crc`. -/
def fileCrc (crc : BitVec 32) (file : InFile) : BitVec 32 := file.foldl crc32 crc

/-- `getFileSize`, of `if_name`. -/
def getFileSize : Option InFile → Nat
  | none => 0
  | some file => file.contents.length

def firstBootCode : Region := ⟨firstBootOffset, 1024 * 16⟩
def firstBootData : Region := ⟨firstBootCode.offset + firstBootCode.size, 1024 * 4⟩

def secondBootCode : Region := ⟨Section.s0.offset, 1024 * 38⟩
def secondBootData : Region := ⟨secondBootCode.offset + secondBootCode.size, 1024 * 6⟩

def suspendCode : Region := ⟨secondBootData.offset + secondBootData.size, 1024 * 20⟩
def suspendData : Region := ⟨suspendCode.offset + suspendCode.size, 1024 * 4⟩

def updateCode : Region := ⟨suspendData.offset + suspendData.size, 1024 * 96⟩
def updateData : Region := ⟨updateCode.offset + updateCode.size, 1024 * 24⟩

def mainCode : Region := ⟨updateData.offset + updateData.size, 1024 * 192⟩
def mainData : Region := ⟨mainCode.offset + mainCode.size, 1024 * 56⟩
def mainSpiCode : Region := ⟨mainData.offset + mainData.size, 1024 * 64⟩
def mainRoData : Region := ⟨mainSpiCode.offset + mainSpiCode.size, 1024 * 180⟩
def mainAudioParam : Region := ⟨mainRoData.offset + mainRoData.size, 1024 * 8⟩
def mainSysParam : Region := ⟨mainAudioParam.offset + mainAudioParam.size, 1024 * 4⟩

def pqData (size : Nat) : Region := ⟨pqBinaryStart, size⟩
def userData : Region := ⟨fbcUserStart, fbcUserSize⟩
def factoryData : Region := ⟨fbcFactoryStart, fbcFactorySize⟩

/-- A header after `memset`. -/
def emptyInfo : PartitionInfo :=
  ⟨⟨0, 0⟩, ⟨0, 0⟩, ⟨0, 0⟩, ⟨0, 0⟩, ⟨0, 0⟩, ⟨0, 0⟩, 0⟩

/-- `set_partition_info`, on a header after `memset`. -/
def setPartitionInfo (p : Partition) (ifName : Option InFile) : PartitionInfo :=
  match p with
  | .firstBoot => { emptyInfo with code := firstBootCode, data := firstBootData }
  | .secondBoot => { emptyInfo with code := secondBootCode, data := secondBootData }
  | .suspend => { emptyInfo with code := suspendCode, data := suspendData }
  | .update => { emptyInfo with code := updateCode, data := updateData }
  | .main =>
    { emptyInfo with
      code := mainCode
      data := mainData
      spiCode := mainSpiCode
      readonly := mainRoData
      audioParam := mainAudioParam
      sysParam := mainSysParam }
  | .pq => { emptyInfo with data := pqData (getFileSize ifName) }
  | .user => { emptyInfo with data := userData }
  | .factory => { emptyInfo with data := factoryData }

/-- The header that `main` writes for the files behind its `-i` options. -/
def addPartitionInfo (p : Partition) (files : List InFile) : PartitionInfo :=
  { setPartitionInfo p files.getLast? with crc := (files.foldl fileCrc 0).toNat }

/-- The regions that a partition has. -/
def regionsOf (p : Partition) (info : PartitionInfo) : List Region :=
  match p with
  | .firstBoot | .secondBoot | .suspend | .update => [info.code, info.data]
  | .main => info.regions
  | .pq | .user | .factory => [info.data]

/-- The files have the sizes of the regions, and are what is in the flash there. -/
structure Placed (f : Mem) (p : Partition) (files : List InFile) : Prop where
  contents : files.map InFile.contents =
    (regionsOf p (addPartitionInfo p files)).map fun r => f.read r.offset r.size
  fits : ∀ r ∈ regionsOf p (addPartitionInfo p files), r.offset + r.size ≤ configSpiSize

/-- The check accepts the header, and with any byte of a region changed it does not. -/
def Agrees (f : Mem) (p : Partition) (files : List InFile) : Prop :=
  checkPartition f (addPartitionInfo p files) = true ∧
    ∀ r ∈ regionsOf p (addPartitionInfo p files), ∀ i, i < r.size → ∀ b, b ≠ f (r.offset + i) →
      checkPartition (Function.update f (r.offset + i) b) (addPartitionInfo p files) = false

end Tool

/-! ## One message -/

/-- The table of `crc32`. -/
def crcTable (i : Nat) : BitVec 32 := sCrc32.getD i 0

theorem crcTable_distinct : NibbleCrc.Distinct crcTable := by
  have h : ∀ i j : Fin 16, crcTable i >>> 28 = crcTable j >>> 28 → i = j := by decide
  intro i j hi hj heq
  exact Fin.mk.inj (h ⟨i, hi⟩ ⟨j, hj⟩ heq)

theorem crc32_eq (crc : BitVec 32) (p : List Byte) :
    crc32 crc p = ~~~ NibbleCrc.remainder crcTable (~~~ crc) p := rfl

@[simp] theorem crc32_nil (crc : BitVec 32) : crc32 crc [] = crc := BitVec.not_not

/-- The CRC is taken piece by piece. -/
theorem crc32_append (crc : BitVec 32) (a b : List Byte) :
    crc32 crc (a ++ b) = crc32 (crc32 crc a) b := by
  rw [crc32_eq, crc32_eq, crc32_eq, NibbleCrc.remainder_append, BitVec.not_not]

theorem foldl_crc32 (crc : BitVec 32) (pieces : List (List Byte)) :
    pieces.foldl crc32 crc = crc32 crc pieces.flatten := by
  induction pieces generalizing crc with
  | nil => rw [List.foldl_nil, List.flatten_nil, crc32_nil]
  | cons a pieces ih => rw [List.foldl_cons, ih, List.flatten_cons, crc32_append]

section
variable {f : Mem}

/-- What is read in the regions that are used is one message. -/
theorem foldl_checkRegion (rs : List Region) (c : BitVec 32 × Bool) :
    rs.foldl (checkRegion f) c =
      (crc32 c.1 ((rs.filter fun r => decide r.Used).flatMap fun r => f.read r.offset r.size),
        c.2 || rs.any fun r => decide r.Used) := by
  induction rs generalizing c with
  | nil => simp
  | cons r rs ih =>
    rw [List.foldl_cons, ih, checkRegion]
    by_cases hr : r.Used
    · simp [hr, crc32_append]
    · simp [hr]

theorem checkPartition_eq {info : PartitionInfo} {rs : List Region}
    (hused : (info.regions.filter fun r => decide r.Used) = rs) (hne : rs ≠ []) :
    checkPartition f info =
      ((crc32 0 (rs.flatMap fun r => f.read r.offset r.size)).toNat == info.crc) := by
  have hany : (info.regions.any fun r => decide r.Used) = true := by
    rw [← hused] at hne
    obtain ⟨r, hr⟩ := List.exists_mem_of_ne_nil _ hne
    obtain ⟨hmem, hu⟩ := List.mem_filter.mp hr
    exact List.any_eq_true.mpr ⟨r, hmem, hu⟩
  unfold checkPartition
  rw [foldl_checkRegion, hused, hany, Bool.or_true, Bool.true_and]

/-- Regions one behind the other. -/
def Row (start : Nat) : List Region → Prop
  | [] => True
  | r :: rs => r.offset = start ∧ Row (start + r.size) rs

theorem Row.read {start : Nat} {rs : List Region} (h : Row start rs) :
    (rs.flatMap fun r => f.read r.offset r.size) = f.read start (rs.map Region.size).sum := by
  induction rs generalizing start with
  | nil => rfl
  | cons r rs ih =>
    rw [List.flatMap_cons, ih h.2, h.1, List.map_cons, List.sum_cons, Mem.read_add]

theorem Row.within {start : Nat} {rs : List Region} (h : Row start rs) {r : Region} (hr : r ∈ rs) :
    start ≤ r.offset ∧ r.offset + r.size ≤ start + (rs.map Region.size).sum := by
  induction rs generalizing start with
  | nil => cases hr
  | cons r' rs ih =>
    rw [List.map_cons, List.sum_cons]
    obtain ⟨hoff, hrow⟩ := h
    rcases List.mem_cons.mp hr with rfl | hr
    · omega
    · have := ih hrow hr
      omega

/-- One byte of a message tells. -/
theorem crc32_update_ne {start n i : Nat} {b : Byte} (hi : i < n) (hb : b ≠ f (start + i)) :
    crc32 0 (Mem.read (Function.update f (start + i) b) start n) ≠ crc32 0 (f.read start n) := by
  obtain ⟨k, rfl⟩ : ∃ k, n = i + (k + 1) := ⟨n - i - 1, by omega⟩
  have hsplit (m : Mem) : m.read start (i + (k + 1)) =
      m.read start i ++ m (start + i) :: m.read (start + i + 1) k := by
    rw [Mem.read_add, Mem.read_succ]
  have hfront : Mem.read (Function.update f (start + i) b) start i = f.read start i := by
    refine Mem.read_congr fun j hj => Function.update_of_ne ?_ _ _
    omega
  have hback : Mem.read (Function.update f (start + i) b) (start + i + 1) k =
      f.read (start + i + 1) k := by
    refine Mem.read_congr fun j _ => Function.update_of_ne ?_ _ _
    omega
  rw [hsplit, hsplit, hfront, hback, Function.update_self, crc32_eq, crc32_eq]
  intro heq
  have := congrArg (~~~ ·) heq
  rw [BitVec.not_not, BitVec.not_not] at this
  exact NibbleCrc.remainder_ne crcTable_distinct _ _ _ hb this

end

/-! ## Headers -/

namespace Tool

section
variable {f : Mem} {p : Partition} {files : List InFile}

theorem foldl_fileCrc (crc : BitVec 32) (files : List InFile) :
    files.foldl fileCrc crc = crc32 crc (files.map InFile.contents).flatten := by
  induction files generalizing crc with
  | nil => exact (crc32_nil crc).symm
  | cons file files ih =>
    rw [List.foldl_cons, ih, fileCrc, foldl_crc32, List.map_cons, List.flatten_cons, crc32_append]
    rfl

/-- The regions of a partition lie one behind the other. -/
theorem row_regionsOf (p : Partition) (files : List InFile) :
    ∃ start, Row start (regionsOf p (addPartitionInfo p files)) := by
  cases p with
  | firstBoot => exact ⟨_, rfl, rfl, trivial⟩
  | secondBoot => exact ⟨_, rfl, rfl, trivial⟩
  | suspend => exact ⟨_, rfl, rfl, trivial⟩
  | update => exact ⟨_, rfl, rfl, trivial⟩
  | main => exact ⟨_, rfl, rfl, rfl, rfl, rfl, rfl, trivial⟩
  | pq => exact ⟨_, rfl, trivial⟩
  | user => exact ⟨_, rfl, trivial⟩
  | factory => exact ⟨_, rfl, trivial⟩

theorem regionsOf_ne_nil (p : Partition) (info : PartitionInfo) : regionsOf p info ≠ [] := by
  cases p <;> exact List.cons_ne_nil _ _

/-- The check uses the regions that the partition has. -/
theorem used_regionsOf (hpos : ∀ r ∈ regionsOf p (addPartitionInfo p files), 0 < r.size)
    (hfits : ∀ r ∈ regionsOf p (addPartitionInfo p files), r.offset + r.size ≤ configSpiSize) :
    ((addPartitionInfo p files).regions.filter fun r => decide r.Used) =
      regionsOf p (addPartitionInfo p files) := by
  cases p with
  | firstBoot => rfl
  | secondBoot => rfl
  | suspend => rfl
  | update => rfl
  | main => rfl
  | pq =>
    have hu : (pqData (getFileSize files.getLast?)).Used := by
      have h0 := hpos _ List.mem_cons_self
      have hfit := hfits _ List.mem_cons_self
      refine ⟨(by decide : pqBinaryStart ≠ 0), h0.ne', (by decide : pqBinaryStart < _), ?_⟩
      change pqBinaryStart + (pqData (getFileSize files.getLast?)).size ≤ configSpiSize at hfit
      unfold pqBinaryStart at hfit
      omega
    have hregions : (addPartitionInfo .pq files).regions =
        ⟨0, 0⟩ :: pqData (getFileSize files.getLast?) :: List.replicate 4 ⟨0, 0⟩ := rfl
    rw [hregions, List.filter_cons_of_neg (by decide),
      List.filter_cons_of_pos (p := fun r : Region => decide r.Used) (decide_eq_true hu)]
    rfl
  | user => rfl
  | factory => rfl

/-- **A header agrees with the check**, when none of the files is empty. -/
theorem agrees_of_placed (h : Placed f p files) (hne : ∀ file ∈ files, file.contents ≠ []) :
    Agrees f p files := by
  obtain ⟨start, hrow⟩ := row_regionsOf p files
  have hpos : ∀ r ∈ regionsOf p (addPartitionInfo p files), 0 < r.size := by
    intro r hr
    have hmem := List.mem_map_of_mem (f := fun r : Region => f.read r.offset r.size) hr
    rw [← h.contents] at hmem
    obtain ⟨file, hfile, heq⟩ := List.mem_map.mp hmem
    have hlen := List.length_pos_of_ne_nil (hne file hfile)
    rwa [heq, Mem.length_read] at hlen
  have hcheck (g : Mem) : checkPartition g (addPartitionInfo p files) =
      ((crc32 0 (g.read start
        ((regionsOf p (addPartitionInfo p files)).map Region.size).sum)).toNat ==
          (addPartitionInfo p files).crc) := by
    rw [checkPartition_eq (used_regionsOf hpos h.fits) (regionsOf_ne_nil p _), hrow.read]
  have hcrc : (addPartitionInfo p files).crc = (crc32 0 (f.read start
      ((regionsOf p (addPartitionInfo p files)).map Region.size).sum)).toNat := by
    change (files.foldl fileCrc 0).toNat = _
    rw [foldl_fileCrc, h.contents, ← List.flatMap_def, hrow.read]
  refine ⟨?_, fun r hr i hi b hb => ?_⟩
  · rw [hcheck, hcrc]
    exact beq_self_eq_true _
  · obtain ⟨h1, h2⟩ := hrow.within hr
    obtain ⟨k, hk⟩ := Nat.exists_eq_add_of_le h1
    rw [hk, Nat.add_assoc] at hb ⊢
    rw [hcheck, hcrc, beq_eq_false_iff_ne]
    intro heq
    exact crc32_update_ne (by omega) hb (BitVec.eq_of_toNat_eq heq)

end

/-- The file of a region, as reads of 4096 bytes return it. -/
def fileAt (m : Mem) (r : Region) : InFile :=
  (List.range (r.size / 4096)).map fun k => m.read (r.offset + 4096 * k) 4096

theorem contents_fileAt (m : Mem) {r : Region} (h : 4096 ∣ r.size) :
    (fileAt m r).contents = m.read r.offset r.size := by
  have hpieces : ∀ n, ((List.range n).map fun k => m.read (r.offset + 4096 * k) 4096).flatten =
      m.read r.offset (4096 * n) := by
    intro n
    induction n with
    | zero => rfl
    | succ n ih =>
      rw [List.range_succ, List.map_append, List.flatten_append, ih, Nat.mul_succ, Mem.read_add,
        List.map_singleton, List.flatten_singleton]
  rw [fileAt, InFile.contents, hpieces, Nat.mul_div_cancel' h]

/-- The code of the suspend partition in five reads, its data in one. -/
theorem agrees_suspend :
    Agrees (BitVec.ofNat 8) .suspend [fileAt (BitVec.ofNat 8) suspendCode,
      fileAt (BitVec.ofNat 8) suspendData] := by
  have hcode := contents_fileAt (BitVec.ofNat 8) (r := suspendCode) (by decide)
  have hdata := contents_fileAt (BitVec.ofNat 8) (r := suspendData) (by decide)
  refine agrees_of_placed ⟨?_, ?_⟩ ?_
  · rw [List.map_cons, List.map_singleton, hcode, hdata]
    rfl
  · exact List.forall_mem_cons.2 ⟨by decide, List.forall_mem_singleton.2 (by decide)⟩
  · refine List.forall_mem_cons.2 ⟨?_, List.forall_mem_singleton.2 ?_⟩
    · rw [hcode]
      exact List.ne_nil_of_length_pos (Mem.length_read _ _ _ ▸ by decide)
    · rw [hdata]
      exact List.ne_nil_of_length_pos (Mem.length_read _ _ _ ▸ by decide)

/-- **An empty table**: there is nothing that the check could accept. -/
theorem not_agrees_empty : Placed (fun _ => 7) .pq [[[]]] ∧ ¬ Agrees (fun _ => 7) .pq [[[]]] := by
  refine ⟨⟨rfl, by decide⟩, fun h => ?_⟩
  have hno : checkPartition (fun _ => 7) (addPartitionInfo .pq [[[]]]) = false := by decide
  exact absurd (hno.symm.trans h.1) Bool.false_ne_true

end Tool

end VendorAmlogic.Fbc
