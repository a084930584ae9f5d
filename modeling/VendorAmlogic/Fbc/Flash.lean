import VendorAmlogic.Lib.Mem
import VendorAmlogic.Lib.Stdio

/-!
# The SPI flash of the FBC board

Layout of `include/spi_regional_division.h` and of `board_config.h`, and `get_partition_info`,
`check_partition` and `move_image` of `boot/relocate.c`. A section is judged by
the partitions that are booted from it. `SameImage` is the relation under which
this judgement is the same: it is how a section is framed by writes elsewhere,
and how a copied section gets valid.
-/

namespace VendorAmlogic.Fbc

open VendorAmlogic.Lib

/-! ## Layout -/

def spiBlockSize : Nat := 4096
def configSpiSize : Nat := 0x200000

def partitionInfoSize : Nat := 0x200
def firstBootInfoOffset : Nat := 0x41000
def firstBootOffset : Nat := 0x44000

def sectionInfoSize : Nat := 0x1000
def sectionSize : Nat := 0xAD000

def pqBinaryStart : Nat := 0x1A3000
def fbcUserStart : Nat := 0x1EE000
def fbcUserSize : Nat := 0x2000
def fbcFactoryStart : Nat := 0x1F0000
def fbcFactorySize : Nat := 0x10000

inductive Section where
  | s0
  | s1
  deriving DecidableEq

def Section.infoOffset : Section → Nat
  | .s0 => 0x42000
  | .s1 => 0x43000

def Section.offset : Section → Nat
  | .s0 => 0x49000
  | .s1 => 0xF6000

inductive Partition where
  | firstBoot
  | secondBoot
  | suspend
  | update
  | main
  | pq
  | user
  | factory
  deriving DecidableEq

def Partition.index : Partition → Nat
  | .firstBoot => 0
  | .secondBoot => 1
  | .suspend => 2
  | .update => 3
  | .main => 4
  | .pq => 5
  | .user => 6
  | .factory => 7

structure Region where
  offset : Nat
  size : Nat

/-- `partition_info_t`, without what no check reads. -/
structure PartitionInfo where
  code : Region
  data : Region
  spiCode : Region
  readonly : Region
  audioParam : Region
  sysParam : Region
  crc : Nat

/-! ## Partitions -/

def u32At (f : Mem) (a : Nat) : Nat := ofLe (f.read a 4)

def regionAt (f : Mem) (a : Nat) : Region := ⟨u32At f a, u32At f (a + 4)⟩

def infoAt (f : Mem) (a : Nat) : PartitionInfo where
  code := regionAt f a
  data := regionAt f (a + 8)
  readonly := regionAt f (a + 24)
  spiCode := regionAt f (a + 288)
  audioParam := regionAt f (a + 296)
  sysParam := regionAt f (a + 304)
  crc := u32At f (a + 312)

def getPartitionInfo (f : Mem) (sec : Section) (p : Partition) : PartitionInfo :=
  if p = .firstBoot then infoAt f firstBootInfoOffset
  else infoAt f (sec.infoOffset + partitionInfoSize * (p.index - 1))

def sCrc32 : List (BitVec 32) :=
  [0, 0x1db71064, 0x3b6e20c8, 0x26d930ac,
    0x76dc4190, 0x6b6b51f4, 0x4db26158, 0x5005713c,
    0xedb88320, 0xf00f9344, 0xd6d6a3e8, 0xcb61b38c,
    0x9b64c2b0, 0x86d3d2d4, 0xa00ae278, 0xbdbdf21c]

def crcNibble (c n : BitVec 32) : BitVec 32 :=
  (c >>> 4) ^^^ sCrc32.getD ((c &&& 0xF) ^^^ n).toNat 0

/-- `crc32`, as `tool/add_partition_info.c` has it. -/
def crc32 (crc : BitVec 32) (p : List Byte) : BitVec 32 :=
  ~~~p.foldl (fun c (b : Byte) =>
    crcNibble (crcNibble c ((b &&& 0xF).setWidth 32)) ((b >>> 4).setWidth 32)) (~~~crc)

def Region.Used (r : Region) : Prop :=
  r.offset ≠ 0 ∧ r.size ≠ 0 ∧ r.offset < configSpiSize ∧ r.size < configSpiSize

instance (r : Region) : Decidable r.Used :=
  inferInstanceAs (Decidable (_ ∧ _))

/-- One of the six blocks of `check_partition`, on `crc` and `crc_flag`. -/
def checkRegion (f : Mem) (c : BitVec 32 × Bool) (r : Region) : BitVec 32 × Bool :=
  if r.Used then (crc32 c.1 (f.read r.offset r.size), true) else c

def PartitionInfo.regions (info : PartitionInfo) : List Region :=
  [info.code, info.data, info.spiCode, info.readonly, info.audioParam, info.sysParam]

/-- `check_partition` returns 0. -/
def checkPartition (f : Mem) (info : PartitionInfo) : Bool :=
  let c := info.regions.foldl (checkRegion f) (0, false)
  c.2 && c.1.toNat == info.crc

/-! ## Sections -/

/-- A region of section 0 in section 1. -/
def Region.shift (r : Region) : Region :=
  { r with offset := (r.offset + sectionSize) % 2 ^ 32 }

def Region.inSection (r : Region) : Section → Region
  | .s0 => r
  | .s1 => r.shift

/-- A partition with all its regions in the section. -/
def PartitionInfo.inSection (info : PartitionInfo) (sec : Section) : PartitionInfo where
  code := info.code.inSection sec
  data := info.data.inSection sec
  spiCode := info.spiCode.inSection sec
  readonly := info.readonly.inSection sec
  audioParam := info.audioParam.inSection sec
  sysParam := info.sysParam.inSection sec
  crc := info.crc

/-- The partitions that are booted. -/
def bootPartitions : List Partition := [.secondBoot, .suspend, .update, .main]

def partitionOk (f : Mem) (sec : Section) (p : Partition) : Bool :=
  checkPartition f ((getPartitionInfo f sec p).inSection sec)

def Valid (f : Mem) (sec : Section) : Prop := ∀ p ∈ bootPartitions, partitionOk f sec p = true

instance (f : Mem) (sec : Section) : Decidable (Valid f sec) :=
  inferInstanceAs (Decidable (∀ p ∈ bootPartitions, _))

/-- The region is one that is not checked, or lies within section 0. -/
def Region.InPlace (r : Region) : Prop :=
  r.size = 0 ∨ configSpiSize ≤ r.size ∨
    (Section.s0.offset ≤ r.offset ∧ r.offset + r.size ≤ Section.s0.offset + sectionSize)

instance (r : Region) : Decidable r.InPlace :=
  inferInstanceAs (Decidable (_ ∨ _))

/-- The partition table of the section has its regions within the section. -/
def InPlace (f : Mem) (sec : Section) : Prop :=
  ∀ p ∈ bootPartitions, ∀ r ∈ (getPartitionInfo f sec p).regions, r.InPlace

instance (f : Mem) (sec : Section) : Decidable (InPlace f sec) :=
  inferInstanceAs (Decidable (∀ p ∈ bootPartitions, _))

/-- The two sections have the same bytes. -/
structure SameImage (f : Mem) (sec : Section) (f' : Mem) (sec' : Section) : Prop where
  body : ∀ i, i < sectionSize → f (sec.offset + i) = f' (sec'.offset + i)
  info : ∀ i, i < sectionInfoSize → f (sec.infoOffset + i) = f' (sec'.infoOffset + i)

section
variable {f f' : Mem} {sec sec' : Section}

theorem u32At_congr {a a' : Nat} (h : ∀ i, i < 4 → f (a + i) = f' (a' + i)) :
    u32At f a = u32At f' a' := by
  unfold u32At
  rw [Mem.read_congr h]

theorem regionAt_congr {a a' : Nat} (h : ∀ i, i < 8 → f (a + i) = f' (a' + i)) :
    regionAt f a = regionAt f' a' := by
  have hsize : u32At f (a + 4) = u32At f' (a' + 4) := by
    apply u32At_congr
    intro i hi
    rw [Nat.add_assoc, Nat.add_assoc]
    exact h (4 + i) (by omega)
  unfold regionAt
  rw [u32At_congr fun i hi => h i (by omega), hsize]

theorem infoAt_congr {a a' : Nat} (h : ∀ i, i < 316 → f (a + i) = f' (a' + i)) :
    infoAt f a = infoAt f' a' := by
  have hr : ∀ o, o + 8 ≤ 316 → regionAt f (a + o) = regionAt f' (a' + o) := by
    intro o ho
    apply regionAt_congr
    intro i hi
    rw [Nat.add_assoc, Nat.add_assoc]
    exact h (o + i) (by omega)
  have hc : u32At f (a + 312) = u32At f' (a' + 312) := by
    apply u32At_congr
    intro i hi
    rw [Nat.add_assoc, Nat.add_assoc]
    exact h (312 + i) (by omega)
  unfold infoAt
  rw [hr 8 (by decide), hr 24 (by decide), hr 288 (by decide), hr 296 (by decide),
    hr 304 (by decide), hc]
  congr 1
  exact hr 0 (by decide)

theorem SameImage.getPartitionInfo_eq (h : SameImage f sec f' sec') {p : Partition}
    (hp : p ∈ bootPartitions) : getPartitionInfo f sec p = getPartitionInfo f' sec' p := by
  have hidx : p ≠ .firstBoot ∧ p.index - 1 ≤ 3 := by
    revert p
    decide
  unfold getPartitionInfo
  rw [if_neg hidx.1, if_neg hidx.1]
  apply infoAt_congr
  intro i hi
  rw [Nat.add_assoc, Nat.add_assoc]
  apply h.info
  unfold partitionInfoSize sectionInfoSize
  omega

/-- A region within the section, in that section. -/
theorem Region.inSection_offset {r : Region} (h1 : Section.s0.offset ≤ r.offset)
    (h2 : r.offset + r.size ≤ Section.s0.offset + sectionSize) (sec : Section) :
    (r.inSection sec).offset = sec.offset + (r.offset - Section.s0.offset) := by
  cases sec with
  | s0 =>
    simp only [Region.inSection]
    omega
  | s1 =>
    simp only [Region.inSection, Region.shift, Section.offset, sectionSize] at h1 h2 ⊢
    omega

@[simp] theorem Region.inSection_size (r : Region) (sec : Section) :
    (r.inSection sec).size = r.size := by
  -- with `r` in parts, or the check would compare the offsets first
  obtain ⟨offset, size⟩ := r
  cases sec <;> rfl

/-- In which section it is does not matter for a region in place. -/
theorem Region.used_inSection {r : Region} (hr : r.InPlace) (sec : Section) :
    (r.inSection sec).Used ↔ r.Used := by
  unfold Region.Used
  rw [Region.inSection_size]
  rcases hr with hr | hr | ⟨h1, h2⟩
  · exact iff_of_false (fun h => h.2.1 hr) (fun h => h.2.1 hr)
  · exact iff_of_false (fun h => by omega) (fun h => by omega)
  · rw [Region.inSection_offset h1 h2]
    have hs : sectionSize = 0xAD000 := rfl
    have hc : configSpiSize = 0x200000 := rfl
    cases sec <;> simp only [Section.offset] at * <;> omega

theorem SameImage.checkRegion_eq (h : SameImage f sec f' sec') {r : Region} (hr : r.InPlace)
    (c : BitVec 32 × Bool) :
    checkRegion f c (r.inSection sec) = checkRegion f' c (r.inSection sec') := by
  unfold checkRegion
  by_cases hu : r.Used
  · rw [if_pos ((Region.used_inSection hr sec).mpr hu),
      if_pos ((Region.used_inSection hr sec').mpr hu)]
    rcases hr with hr | hr | ⟨h1, h2⟩
    · exact absurd hr hu.2.1
    · exact absurd hu.2.2.2 (Nat.not_lt.mpr hr)
    · have ho := Region.inSection_offset h1 h2
      rw [ho, ho, Region.inSection_size, Region.inSection_size]
      congr 2
      apply Mem.read_congr
      intro i hi
      rw [Nat.add_assoc, Nat.add_assoc]
      apply h.body
      omega
  · rw [if_neg (mt (Region.used_inSection hr sec).mp hu),
      if_neg (mt (Region.used_inSection hr sec').mp hu)]

theorem SameImage.checkPartition_eq (h : SameImage f sec f' sec') {info : PartitionInfo}
    (hi : ∀ r ∈ info.regions, r.InPlace) :
    checkPartition f (info.inSection sec) = checkPartition f' (info.inSection sec') := by
  have hfold : ∀ (rs : List Region) c, (∀ r ∈ rs, r.InPlace) →
      (rs.map (Region.inSection · sec)).foldl (checkRegion f) c =
        (rs.map (Region.inSection · sec')).foldl (checkRegion f') c := by
    intro rs
    induction rs with
    | nil => intro c _; rfl
    | cons r rs ih =>
      intro c hrs
      rw [List.map_cons, List.map_cons, List.foldl_cons, List.foldl_cons,
        h.checkRegion_eq (hrs r List.mem_cons_self)]
      exact ih _ fun r' hr' => hrs r' (List.mem_cons_of_mem _ hr')
  have := hfold info.regions (0, false) hi
  unfold checkPartition
  rw [show (info.inSection sec).regions = info.regions.map (Region.inSection · sec) from rfl,
    show (info.inSection sec').regions = info.regions.map (Region.inSection · sec') from rfl, this]
  rfl

/-- A copy of a section is in place. -/
theorem SameImage.inPlace (h : SameImage f sec f' sec') (hi : InPlace f sec) :
    InPlace f' sec' := by
  intro p hp
  rw [← h.getPartitionInfo_eq hp]
  exact hi p hp

/-- A copy of a valid section is valid. -/
theorem SameImage.valid (h : SameImage f sec f' sec') (hi : InPlace f sec) (hv : Valid f sec) :
    Valid f' sec' := by
  intro p hp
  have hok := hv p hp
  unfold partitionOk at hok ⊢
  rwa [← h.getPartitionInfo_eq hp, ← h.checkPartition_eq (hi p hp)]

end

end VendorAmlogic.Fbc
