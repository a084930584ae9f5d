import VendorAmlogic.Fbc.Flash
import VendorAmlogic.Lib.Run

/-!
# The two sections through updates and resets

`section_backup` and `section_restore` of `boot/relocate.c`, called by
`boot/first_boot.c`, `boot/boot.c` and `boot/update_main.c`. One step is an
erase or a write of the flash, or a boot, which may come at any point. The
backup is made from whatever section 0 is, and the restore looks at one
partition: runs in which both start from a good section never lose both copies.
-/

namespace VendorAmlogic.Fbc

open VendorAmlogic.Lib

/-! ## Flash -/

/-- `spi_flash_erase` of a block. -/
def spiFlashErase (f : Mem) (o : Nat) : Mem :=
  fun j => if o ≤ j ∧ j < o + spiBlockSize then 0xFF else f j

/-- `spi_flash_read` of a block. -/
def spiFlashRead (f : Mem) (o : Nat) : Mem := fun i => f (o + i)

/-- `spi_flash_write` of `n` bytes: bits are only cleared. -/
def spiFlashWrite (f : Mem) (o n : Nat) (buf : Mem) : Mem :=
  fun j => if o ≤ j ∧ j < o + n then f j &&& buf (j - o) else f j

/-- A write that leaves `buf` behind, whatever was to be written. -/
def spiFlashGarble (f : Mem) (o : Nat) (buf : Mem) : Mem :=
  fun j => if o ≤ j ∧ j < o + spiBlockSize then buf (j - o) else f j

/-- `memcmp` of two blocks is 0. -/
@[irreducible] def sameBlock (a b : Mem) : Bool := (List.range spiBlockSize).all fun i => a i == b i

theorem sameBlock_iff {a b : Mem} : sameBlock a b = true ↔ ∀ i, i < spiBlockSize → a i = b i := by
  unfold sameBlock
  rw [List.all_eq_true]
  simp only [List.mem_range, beq_iff_eq]

/-- The blocks that `move_image` moves, each as where from and where to. -/
def moveImage (sOffs bOffs size : Nat) : List (Nat × Nat) :=
  let blockNum := size / spiBlockSize + if size % spiBlockSize ≠ 0 then 1 else 0
  (List.range blockNum).map fun i => (sOffs + i * spiBlockSize, bOffs + i * spiBlockSize)

/-- The bytes are within the section or its info. -/
def onSection (sec : Section) (o n : Nat) : Prop :=
  (sec.infoOffset ≤ o ∧ o + n ≤ sec.infoOffset + sectionInfoSize) ∨
    (sec.offset ≤ o ∧ o + n ≤ sec.offset + sectionSize)

instance (sec : Section) (o n : Nat) : Decidable (onSection sec o n) :=
  inferInstanceAs (Decidable (_ ∨ _))

/-- What a section is copied by. -/
def moveSection (src dst : Section) : List (Nat × Nat) :=
  moveImage src.offset dst.offset sectionSize ++
    moveImage src.infoOffset dst.infoOffset sectionInfoSize

/-- The check of `section_restore`: only `code_offset` and `data_offset` are shifted. -/
def restoreCheck (f : Mem) : Bool :=
  let info := getPartitionInfo f .s1 .secondBoot
  checkPartition f { info with code := info.code.shift, data := info.data.shift }

/-! ## Boots -/

abbrev BootFlag := BitVec 32

def flagUpgrade1 : BootFlag := 0x80808080
def flagUpgrade2 : BootFlag := 0x88888888
def flagSuspend : BootFlag := 0x12345678
def flagBootError : BootFlag := 0x75757575
def flagFromUpgrade : BootFlag := 0x87654320
def flagFromWatchdog : BootFlag := 0x87654322

/-- Which of the two copies is made. -/
inductive Job where
  | backup
  | restore

def Job.src : Job → Section
  | .backup => .s0
  | .restore => .s1

def Job.dst : Job → Section
  | .backup => .s1
  | .restore => .s0

def Job.blocks (j : Job) : List (Nat × Nat) := moveSection j.src j.dst

/-- Where the board is. -/
inductive Pc where
  /-- main, suspend or the console -/
  | running
  | rebooting (flag : BootFlag)
  /-- within a copy, with the blocks to go; whether the first is erased -/
  | move (job : Job) (todo : List (Nat × Nat)) (erased : Bool)
  /-- the loop of the updater on `handle_cmd` -/
  | commands

/-- `second_boot`; the console is entered when its delay is `aborted`. -/
def secondBoot (f : Mem) (flag : BootFlag) (aborted : Bool) : Pc :=
  if flag = flagSuspend then
    if partitionOk f .s0 .suspend then .running else .rebooting flagFromWatchdog
  else if flag = flagUpgrade1 ∨ flag = flagUpgrade2 then
    if partitionOk f .s0 .update then .move .backup Job.backup.blocks false
    else .rebooting flagFromWatchdog
  else if aborted then .running
  else if partitionOk f .s0 .main then .running
  else .rebooting flagFromWatchdog

/-- `main` of `first_boot.c`. -/
def firstBoot (f : Mem) (flag : BootFlag) (aborted : Bool) : Pc :=
  if flag = flagFromWatchdog then
    if restoreCheck f then .move .restore Job.restore.blocks false
    else .rebooting flagBootError
  else if partitionOk f .s0 .secondBoot then secondBoot f flag aborted
  else .rebooting flagFromWatchdog

/-! ## Steps -/

structure Board where
  flash : Mem
  pc : Pc

inductive Act where
  /-- a reset, and a boot with this flag -/
  | boot (flag : BootFlag) (aborted : Bool)
  /-- the next erase of the copy -/
  | erase
  /-- the next write of the copy; it may go wrong -/
  | write (bad : Option Mem)
  /-- an erase by an upgrade command -/
  | cmdErase (o : Nat)
  /-- a write by an upgrade command -/
  | cmdWrite (o n : Nat) (buf : Mem)
  /-- the updater is told to exit -/
  | exit

/-- After a block: when all are moved, the updater takes commands and the restore reboots. -/
def afterBlock (job : Job) (todo : List (Nat × Nat)) : Pc :=
  match todo, job with
  | [], .backup => .commands
  | [], .restore => .rebooting flagBootError
  | todo, job => .move job todo false

/-- `move_image` returns -1: the updater starts the backup again, the restore reboots. -/
def afterFailure : Job → Pc
  | .backup => .move .backup Job.backup.blocks false
  | .restore => .rebooting flagBootError

/-- The write of `move_image`, as the flash takes it. -/
def writeBlock (f : Mem) (src dst : Nat) : Option Mem → Mem
  | none => spiFlashWrite f dst spiBlockSize (spiFlashRead f src)
  | some m => spiFlashGarble f dst m

/-- After a write, with `f` before and `f'` after it: what is read back is compared. -/
def afterWrite (job : Job) (src dst : Nat) (todo : List (Nat × Nat)) (f f' : Mem) : Pc :=
  if sameBlock (spiFlashRead f' dst) (spiFlashRead f src) then afterBlock job todo
  else afterFailure job

/-- What is not the next step of the program does nothing. -/
def step (s : Board) : Act → Board × Unit
  | .boot flag aborted => ({ s with pc := firstBoot s.flash flag aborted }, ())
  | .erase =>
    match s.pc with
    | .move job ((src, dst) :: todo) false =>
      (⟨spiFlashErase s.flash dst, .move job ((src, dst) :: todo) true⟩, ())
    | _ => (s, ())
  | .write bad =>
    match s.pc with
    | .move job ((src, dst) :: todo) true =>
      let f := writeBlock s.flash src dst bad
      (⟨f, afterWrite job src dst todo s.flash f⟩, ())
    | _ => (s, ())
  | .cmdErase o =>
    match s.pc with
    | .commands =>
      if onSection .s0 o spiBlockSize then (⟨spiFlashErase s.flash o, .commands⟩, ()) else (s, ())
    | _ => (s, ())
  | .cmdWrite o n buf =>
    match s.pc with
    | .commands =>
      if onSection .s0 o n then (⟨spiFlashWrite s.flash o n buf, .commands⟩, ()) else (s, ())
    | _ => (s, ())
  | .exit =>
    match s.pc with
    | .commands => ({ s with pc := .rebooting flagFromUpgrade }, ())
    | _ => (s, ())

/-- One section is valid, and a restore starts from a valid section 1. -/
def Safe (s : Board) : Prop :=
  (Valid s.flash .s0 ∨ Valid s.flash .s1) ∧
    (s.pc = .move .restore Job.restore.blocks false → Valid s.flash .s1)

/-- The updater is booted from a section 0 that is valid and in place as a whole, and what a
restore does not look at is good whenever what it looks at is. -/
def Careful (s : Board) : Act → Prop
  | .boot flag _ =>
    (flag = flagUpgrade1 ∨ flag = flagUpgrade2 →
      partitionOk s.flash .s0 .secondBoot → partitionOk s.flash .s0 .update →
      Valid s.flash .s0 ∧ InPlace s.flash .s0) ∧
    (flag = flagFromWatchdog → restoreCheck s.flash →
      Valid s.flash .s1 ∧ InPlace s.flash .s1)
  | _ => True

/-! ## Frames -/

/-- Nothing but the `n` bytes at `o` has changed. -/
def Frame (o n : Nat) (f f' : Mem) : Prop := ∀ j, j < o ∨ o + n ≤ j → f' j = f j

section
variable {f f' : Mem} {o n : Nat}

theorem frame_erase : Frame o spiBlockSize f (spiFlashErase f o) := by
  intro j hj
  exact if_neg (by omega)

theorem frame_write {buf : Mem} : Frame o n f (spiFlashWrite f o n buf) := by
  intro j hj
  exact if_neg (by omega)

theorem frame_garble {buf : Mem} : Frame o spiBlockSize f (spiFlashGarble f o buf) := by
  intro j hj
  exact if_neg (by omega)

theorem frame_writeBlock {src : Nat} (bad : Option Mem) :
    Frame o spiBlockSize f (writeBlock f src o bad) := by
  cases bad with
  | none => exact frame_write
  | some m => exact frame_garble

/-- The sections do not overlap. -/
theorem onSection.disjoint {sec sec' : Section} (hne : sec ≠ sec') (h : onSection sec' o n)
    {j k : Nat} (hj : onSection sec j k) : j + k ≤ o ∨ o + n ≤ j := by
  have h1 : sectionSize = 0xAD000 := rfl
  have h2 : sectionInfoSize = 0x1000 := rfl
  unfold onSection at h hj
  cases sec <;> cases sec' <;> simp only [Section.infoOffset, Section.offset] at h hj <;>
    first
      | exact absurd rfl hne
      | omega

theorem Frame.sameImage {sec sec' : Section} (hf : Frame o n f f') (hne : sec ≠ sec')
    (h : onSection sec' o n) : SameImage f sec f' sec := by
  constructor
  · intro i hi
    have hd := h.disjoint hne (j := sec.offset + i) (k := 1) (.inr (by omega))
    exact (hf _ (by omega)).symm
  · intro i hi
    have hd := h.disjoint hne (j := sec.infoOffset + i) (k := 1) (.inl (by omega))
    exact (hf _ (by omega)).symm

end

/-- A section that can be booted and copied. -/
structure Good (f : Mem) (sec : Section) : Prop where
  valid : Valid f sec
  inPlace : InPlace f sec

theorem SameImage.good {f f' : Mem} {sec sec' : Section} (h : SameImage f sec f' sec')
    (hg : Good f sec) : Good f' sec' :=
  ⟨h.valid hg.inPlace hg.valid, h.inPlace hg.inPlace⟩

/-! ## Copies -/

theorem mem_moveSection {src dst : Section} {x : Nat × Nat} (h : x ∈ moveSection src dst) :
    (∃ k, k < 173 ∧ x = (src.offset + k * spiBlockSize, dst.offset + k * spiBlockSize)) ∨
      x = (src.infoOffset, dst.infoOffset) := by
  rcases List.mem_append.mp h with h | h
  · obtain ⟨k, hk, rfl⟩ := List.mem_map.mp h
    exact .inl ⟨k, List.mem_range.mp hk, rfl⟩
  · obtain ⟨k, hk, rfl⟩ := List.mem_map.mp h
    have hk0 : k < 1 := List.mem_range.mp hk
    obtain rfl : k = 0 := by omega
    exact .inr rfl

theorem onSection_block (sec : Section) {k : Nat} (hk : k < 173) :
    onSection sec (sec.offset + k * spiBlockSize) spiBlockSize := by
  have h1 : sectionSize = 173 * spiBlockSize := rfl
  have h2 := Nat.mul_le_mul_right spiBlockSize (show k + 1 ≤ 173 from hk)
  rw [Nat.add_mul] at h2
  exact .inr ⟨by omega, by omega⟩

/-- Blocks are moved out of the one section into the other. -/
theorem moveSection_on {src dst : Section} {x : Nat × Nat} (h : x ∈ moveSection src dst) :
    onSection src x.1 spiBlockSize ∧ onSection dst x.2 spiBlockSize := by
  rcases mem_moveSection h with ⟨k, hk, rfl⟩ | rfl
  · exact ⟨onSection_block src hk, onSection_block dst hk⟩
  · exact ⟨.inl ⟨Nat.le_refl _, Nat.le_refl _⟩, .inl ⟨Nat.le_refl _, Nat.le_refl _⟩⟩

/-- The places of blocks that do not overlap. -/
def Apart (x y : Nat × Nat) : Prop := x.2 + spiBlockSize ≤ y.2 ∨ y.2 + spiBlockSize ≤ x.2

theorem moveImage_apart (sOffs bOffs size : Nat) : (moveImage sOffs bOffs size).Pairwise Apart := by
  apply List.pairwise_map.mpr
  apply List.pairwise_lt_range.imp
  intro a b hab
  have h := Nat.mul_le_mul_right spiBlockSize (show a + 1 ≤ b from hab)
  rw [Nat.add_mul] at h
  left
  dsimp only
  omega

theorem moveSection_apart (src dst : Section) : (moveSection src dst).Pairwise Apart := by
  apply List.pairwise_append.mpr
  refine ⟨moveImage_apart .., moveImage_apart .., ?_⟩
  intro x hx y hy
  obtain ⟨k, hk, rfl⟩ := List.mem_map.mp hx
  obtain ⟨l, hl, rfl⟩ := List.mem_map.mp hy
  have hk' : k < 173 := List.mem_range.mp hk
  have hl' : l < 1 := List.mem_range.mp hl
  right
  cases dst <;> simp only [Section.infoOffset, Section.offset, spiBlockSize] <;> omega

/-- These blocks have been moved. -/
def Copied (f : Mem) (l : List (Nat × Nat)) : Prop :=
  ∀ x ∈ l, ∀ i, i < spiBlockSize → f (x.2 + i) = f (x.1 + i)

theorem Job.src_ne_dst (job : Job) : job.src ≠ job.dst := by
  cases job <;> decide

section
variable {job : Job} {f f' : Mem} {done todo : List (Nat × Nat)} {x : Nat × Nat}

theorem Job.mem_blocks (h : done ++ x :: todo = job.blocks) : x ∈ job.blocks := by
  rw [← h]
  exact List.mem_append_right _ List.mem_cons_self

/-- A change at the next block leaves the source section alone. -/
theorem Frame.src_sameImage (hf : Frame x.2 spiBlockSize f f') (h : done ++ x :: todo = job.blocks) :
    SameImage f job.src f' job.src :=
  hf.sameImage job.src_ne_dst (moveSection_on (Job.mem_blocks h)).2

theorem Frame.read_src (hf : Frame x.2 spiBlockSize f f') (h : done ++ x :: todo = job.blocks)
    {y : Nat × Nat} (hy : y ∈ job.blocks) {i : Nat} (hi : i < spiBlockSize) :
    f' (y.1 + i) = f (y.1 + i) := by
  have hd := (moveSection_on (Job.mem_blocks h)).2.disjoint job.src_ne_dst (moveSection_on hy).1
  exact hf _ (by omega)

/-- A change at the next block leaves those moved before alone. -/
theorem Frame.copied (hf : Frame x.2 spiBlockSize f f') (h : done ++ x :: todo = job.blocks)
    (hc : Copied f done) : Copied f' done := by
  intro y hy i hi
  have hy' : y ∈ job.blocks := by
    rw [← h]
    exact List.mem_append_left _ hy
  have hapart : Apart y x := by
    have hp := moveSection_apart job.src job.dst
    rw [show moveSection job.src job.dst = done ++ x :: todo from h.symm] at hp
    exact (List.pairwise_append.mp hp).2.2 y hy x List.mem_cons_self
  rw [hf.read_src h hy' hi, ← hc y hy i hi]
  unfold Apart at hapart
  exact hf _ (by omega)

/-- All blocks moved: the sections are the same. -/
theorem Copied.sameImage (hc : Copied f job.blocks) : SameImage f job.src f job.dst := by
  have hb : spiBlockSize = 4096 := rfl
  constructor
  · intro i hi
    have hk : i / 4096 < 173 := Nat.div_lt_of_lt_mul hi
    have hmem : (job.src.offset + i / 4096 * spiBlockSize, job.dst.offset + i / 4096 * spiBlockSize) ∈
        job.blocks :=
      List.mem_append_left _ (List.mem_map.mpr ⟨_, List.mem_range.mpr hk, rfl⟩)
    have := hc _ hmem (i % 4096) (Nat.mod_lt _ (by decide))
    simp only [hb, Nat.add_assoc, Nat.div_add_mod'] at this
    exact this.symm
  · intro i hi
    have hmem : (job.src.infoOffset, job.dst.infoOffset) ∈ job.blocks :=
      List.mem_append_right _ (List.mem_map.mpr ⟨0, List.mem_range.mpr (by decide), by simp⟩)
    exact (hc _ hmem i hi).symm

end

/-! ## The invariant -/

/-- What is good in each place: the source of a copy, and the backup while commands are taken. -/
def Inv (s : Board) : Prop :=
  match s.pc with
  | .running | .rebooting _ => Valid s.flash .s0 ∨ Valid s.flash .s1
  | .move job todo _ =>
    Good s.flash job.src ∧ ∃ done, done ++ todo = job.blocks ∧ Copied s.flash done
  | .commands => Good s.flash .s1

theorem Inv.safe {s : Board} (h : Inv s) : Safe s := by
  obtain ⟨f, pc⟩ := s
  cases pc with
  | running => exact ⟨h, fun hr => by cases hr⟩
  | rebooting => exact ⟨h, fun hr => by cases hr⟩
  | commands => exact ⟨.inr h.valid, fun hr => by cases hr⟩
  | move job todo erased =>
    cases job with
    | backup => exact ⟨.inl h.1.valid, fun hr => by cases hr⟩
    | restore => exact ⟨.inr h.1.valid, fun _ => h.1.valid⟩

section
variable {f f' : Mem} {job : Job} {todo : List (Nat × Nat)}

/-- A copy starts from a good section. -/
theorem inv_start (job : Job) (h : Good f job.src) (erased : Bool) : Inv ⟨f, .move job job.blocks erased⟩ :=
  ⟨h, [], rfl, fun _ hx => by cases hx⟩

theorem inv_boot (h : Valid f .s0 ∨ Valid f .s1) {flag : BootFlag} {aborted : Bool} {pc : Pc}
    (hc : Careful ⟨f, pc⟩ (.boot flag aborted)) : Inv ⟨f, firstBoot f flag aborted⟩ := by
  obtain ⟨hup, hre⟩ := hc
  unfold firstBoot
  split
  · rename_i hw
    split
    · rename_i hr
      exact inv_start .restore ⟨(hre hw hr).1, (hre hw hr).2⟩ _
    · exact h
  · split
    · rename_i h2
      unfold secondBoot
      split
      · split <;> exact h
      · split
        · rename_i hu
          split
          · rename_i h3
            exact inv_start .backup ⟨(hup hu h2 h3).1, (hup hu h2 h3).2⟩ _
          · exact h
        · split
          · exact h
          · split <;> exact h
    · exact h

/-- The end of a copy. -/
theorem inv_afterBlock (hg : Good f job.src) {done : List (Nat × Nat)}
    (h : done ++ todo = job.blocks) (hc : Copied f done) : Inv ⟨f, afterBlock job todo⟩ := by
  cases todo with
  | cons x todo => exact ⟨hg, done, h, hc⟩
  | nil =>
    rw [List.append_nil] at h
    subst h
    cases job with
    | backup => exact hc.sameImage.good hg
    | restore => exact .inr hg.valid

theorem inv_afterFailure (hg : Good f job.src) : Inv ⟨f, afterFailure job⟩ := by
  cases job with
  | backup => exact inv_start .backup hg _
  | restore => exact .inr hg.valid

theorem inv_commands {o n : Nat} (hf : Frame o n f f') (h : onSection .s0 o n) (hg : Good f .s1) :
    Inv ⟨f', .commands⟩ :=
  (hf.sameImage (by decide) h).good hg

end

theorem inv_erase {f : Mem} {job : Job} {src dst : Nat} {todo : List (Nat × Nat)} {erased : Bool}
    (h : Inv ⟨f, .move job ((src, dst) :: todo) erased⟩) :
    Inv ⟨spiFlashErase f dst, .move job ((src, dst) :: todo) true⟩ := by
  obtain ⟨hg, done, hd, hcp⟩ := h
  have hf : Frame dst spiBlockSize f (spiFlashErase f dst) := frame_erase
  exact ⟨(Frame.src_sameImage hf hd).good hg, done, hd, Frame.copied hf hd hcp⟩

/-- Whatever a write leaves behind, `memcmp` lets pass only what was to be written. -/
theorem inv_write {f f' : Mem} {job : Job} {src dst : Nat} {todo : List (Nat × Nat)} {erased : Bool}
    (h : Inv ⟨f, .move job ((src, dst) :: todo) erased⟩) (hf : Frame dst spiBlockSize f f') :
    Inv ⟨f', afterWrite job src dst todo f f'⟩ := by
  obtain ⟨hg, done, hd, hcp⟩ := h
  have hg' := (Frame.src_sameImage hf hd).good hg
  unfold afterWrite
  split
  · rename_i hsame
    refine inv_afterBlock hg' (show (done ++ [(src, dst)]) ++ todo = _ by simpa using hd) ?_
    intro y hy
    rcases List.mem_append.mp hy with hy | hy
    · exact Frame.copied hf hd hcp y hy
    · obtain rfl := List.mem_singleton.mp hy
      intro i hi
      rw [Frame.read_src hf hd (Job.mem_blocks hd) hi]
      exact sameBlock_iff.mp hsame i hi
  · exact inv_afterFailure hg'

theorem step_inv (s : Board) (a : Act) (h : Inv s) (hc : Careful s a) : Inv (step s a).1 := by
  obtain ⟨f, pc⟩ := s
  cases a with
  | boot flag aborted => exact inv_boot h.safe.1 hc
  | erase =>
    simp only [step]
    split
    · exact inv_erase h
    · exact h
  | write bad =>
    simp only [step]
    split
    · exact inv_write h (frame_writeBlock bad)
    · exact h
  | cmdErase o =>
    simp only [step]
    split
    · split
      · rename_i ho
        exact inv_commands frame_erase ho h
      · exact h
    · exact h
  | cmdWrite o n buf =>
    simp only [step]
    split
    · split
      · rename_i ho
        exact inv_commands frame_write ho h
      · exact h
    · exact h
  | exit =>
    simp only [step]
    split
    · exact .inr (Good.valid h)
    · exact h

/-- **Update safety**: as long as the updater is booted from a good section 0, and a restore
finds all of section 1 good, one section stays valid through every erase, write and reset. -/
theorem safe_of_careful {f : Mem} {acts : List Act} (h0 : Valid f .s0)
    (hc : Each Careful step ⟨f, .running⟩ acts) : Always Safe step ⟨f, .running⟩ acts :=
  always_inv step_inv (fun _ h => h.safe) (.inl h0) hc

/-! ## A small image -/

/-- One byte of code in each partition; `main` has a block of its own. -/
def smallInfo (o : Nat) : Byte :=
  match o % partitionInfoSize with
  | 1 => if o / partitionInfoSize = 3 then 0xA0 else 0x90
  | 2 => 0x04
  | 4 => 0x01
  | 312 => 0x8D
  | 313 => 0xEF
  | 314 => 0x02
  | 315 => 0xD2
  | _ => 0

def smallImage : Mem :=
  fun a => if 0x42000 ≤ a ∧ a < 0x44000 then smallInfo (a % sectionInfoSize) else 0

/-- The first two blocks of a copy. -/
theorem blocks_eq (job : Job) :
    job.blocks = (job.src.offset, job.dst.offset) ::
      (job.src.offset + spiBlockSize, job.dst.offset + spiBlockSize) :: job.blocks.drop 2 := by
  cases job <;> rfl

theorem boot_smallImage (pc : Pc) :
    (step ⟨smallImage, pc⟩ (.boot flagUpgrade1 false)).1 =
      ⟨smallImage, .move .backup Job.backup.blocks false⟩ := by
  simp only [step]
  unfold firstBoot secondBoot
  rw [if_neg (by decide), if_pos (by decide +kernel), if_neg (by decide), if_pos (by decide),
    if_pos (by decide +kernel)]

theorem safe_interruptedBackup :
    Valid smallImage .s0 ∧
      Always Safe step ⟨smallImage, .running⟩
        [.boot flagUpgrade1 false, .erase, .boot flagFromWatchdog false] := by
  have hv : Valid smallImage .s0 := by decide +kernel
  refine ⟨hv, safe_of_careful hv ⟨?_, ?_⟩⟩
  · exact ⟨fun _ _ _ => ⟨hv, by decide +kernel⟩, fun h => absurd h (by decide)⟩
  · rw [boot_smallImage, blocks_eq]
    refine ⟨trivial, ⟨fun h => absurd h (by decide), fun _ h => absurd h ?_⟩, trivial⟩
    decide +kernel

section
variable {f : Mem} {job : Job} {src dst : Nat} {todo : List (Nat × Nat)}

/-- On a flash that works, what is read back is what was written. -/
theorem sameBlock_writeBlock :
    sameBlock (spiFlashRead (writeBlock (spiFlashErase f dst) src dst none) dst)
      (spiFlashRead (spiFlashErase f dst) src) = true := by
  apply sameBlock_iff.mpr
  intro i hi
  have hd : dst ≤ dst + i ∧ dst + i < dst + spiBlockSize := by omega
  simp only [spiFlashRead, writeBlock, spiFlashWrite, if_pos hd]
  rw [show spiFlashErase f dst (dst + i) = BitVec.allOnes 8 from if_pos hd, Nat.add_sub_cancel_left,
    BitVec.allOnes_and]

theorem step_erase :
    (step ⟨f, .move job ((src, dst) :: todo) false⟩ .erase).1 =
      ⟨spiFlashErase f dst, .move job ((src, dst) :: todo) true⟩ := rfl

theorem afterBlock_cons {x : Nat × Nat} : afterBlock job (x :: todo) = .move job (x :: todo) false := by
  cases job <;> rfl

theorem move_block :
    (step (step ⟨f, .move job ((src, dst) :: todo) false⟩ .erase).1 (.write none)).1 =
      ⟨writeBlock (spiFlashErase f dst) src dst none, afterBlock job todo⟩ := by
  simp only [step, afterWrite, sameBlock_writeBlock, if_true]

end

/-- The flash when the backup is cut off within `main`. -/
def halfBackup : Mem :=
  spiFlashErase
    (writeBlock (spiFlashErase smallImage Section.s1.offset) Section.s0.offset Section.s1.offset none)
    (Section.s1.offset + spiBlockSize)

theorem backup_halfBackup (pc : Pc) :
    (step (step (step (step ⟨smallImage, pc⟩ (.boot flagUpgrade1 false)).1 .erase).1
      (.write none)).1 .erase).1 = ⟨halfBackup, .move .backup Job.backup.blocks.tail true⟩ := by
  rw [boot_smallImage, blocks_eq, move_block, afterBlock_cons, step_erase]
  rfl

theorem boot_halfBackup (pc : Pc) :
    (step ⟨halfBackup, pc⟩ (.boot flagFromWatchdog false)).1 =
      ⟨halfBackup, .move .restore Job.restore.blocks false⟩ := by
  simp only [step]
  unfold firstBoot
  rw [if_pos rfl, if_pos (by decide +kernel)]

/-- Both sections are valid; the backup is cut off, and a reset by the watchdog follows. -/
theorem unsafe_secondReset :
    Valid smallImage .s0 ∧ Valid smallImage .s1 ∧
      ¬ Always Safe step ⟨smallImage, .running⟩
        [.boot flagUpgrade1 false, .erase, .write none, .erase, .boot flagFromWatchdog false,
          .erase] := by
  refine ⟨by decide +kernel, by decide +kernel, ?_⟩
  rintro ⟨-, -, -, -, -, -, h, -⟩
  rw [backup_halfBackup, boot_halfBackup, blocks_eq, step_erase] at h
  rcases h with h | h
  · exact absurd h (by decide +kernel)
  · exact absurd h (by decide +kernel)

end VendorAmlogic.Fbc
