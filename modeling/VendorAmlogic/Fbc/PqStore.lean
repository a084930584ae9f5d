import VendorAmlogic.Fbc.PqPacker
import VendorAmlogic.Fbc.Update

/-!
# Picture quality store

One binary for each project id, and the table that is in use, as
`project/user_setting.c` reads, checks and switches them. The table in use is
the partition that the packer gives the binaries, which begins with the first
of them: a switch erases the partition, and writes one binary to its start.
The reader goes around the user area, where the packer does not.
-/

namespace VendorAmlogic.Fbc.Pq

open VendorAmlogic.Lib VendorAmlogic.Fbc.Ids

/-- `get_panel_max_count`. -/
def ccPanelMaxCount : Nat := 35

/-- `gCriData.prj_id`, and the flash. -/
structure Store where
  prjId : Mem
  flash : Mem

/-- `nvm_check_prj_id_valid` returns 0. -/
def ValidId (id : Nat) : Prop := ¬ (ccPanelMaxCount ≤ id ∨ id = 0xFFFFFFFF)

instance (id : Nat) : Decidable (ValidId id) := inferInstanceAs (Decidable (¬ (_ ∨ _)))

/-! ## Project id -/

def nvmReadProjectId (st : Store) : Nat :=
  if ValidId (u32At st.prjId 0) ∧ (crc32 0 (st.prjId.read 0 4)).toNat = u32At st.prjId 4 then
    u32At st.prjId 0
  else projectId

/-- `struct cri_prj_id`. -/
def prjRecord (id : Nat) : List Byte :=
  leBytes 4 id ++ leBytes 4 (crc32 0 (leBytes 4 id)).toNat ++ List.replicate 8 0

/-- `nvm_write_project_id`, with what becomes of the write. -/
def nvmWriteProjectId (id : Nat) (ok : Bool) (st : Store) : Store × Int :=
  if ValidId id ∧ ok = true then
    (⟨st.prjId.copy 0 (prjRecord id),
      spiFlashRandomWrite ok st.flash userCriDataStart (prjRecord id)⟩, 0)
  else (st, -1)

/-! ## Binaries -/

def rdFirstEndId : Nat := (fbcUserStart - pqBinaryStart) / pqBinaryUnitSize

/-- Where `nvm_read_pq_db_byid` reads. -/
def pqAddr (id : Nat) : Nat :=
  if id ≤ rdFirstEndId then pqBinaryStart + pqBinaryUnitSize * id
  else fbcUserStart + fbcUserSize + pqBinaryUnitSize * (id - rdFirstEndId - 1)

def nvmReadPqDbById (f : Mem) (id : Nat) : List Byte := f.read (pqAddr id) pqBinaryUnitSize

/-- `cal_pq_crc`. -/
def calPqCrc (buf : List Byte) : Nat := (crc32 0 (buf.take (pqBinaryUnitSize - 4))).toNat

/-- `bin_pq_crc`. -/
def binPqCrc (buf : List Byte) : Nat := ofLe (buf.drop (pqBinaryUnitSize - 4))

/-- `spi_flash_erase`. -/
def eraseRange (f : Mem) (o n : Nat) : Mem := fun j => if o ≤ j ∧ j < o + n then 0xFF else f j

def pqInfo (f : Mem) : Region := (getPartitionInfo f .s0 .pq).data

/-- The table that is in use. -/
def activeTable (st : Store) : List Byte := st.flash.read (pqInfo st.flash).offset pqBinaryUnitSize

/-- With what `malloc` returns. -/
def nvmSwitchPqDbById (id : Nat) (mem : Bool) (st : Store) : Store × Int :=
  if mem = true ∧ ValidId id then
    let buf := nvmReadPqDbById st.flash id
    if calPqCrc buf ≠ binPqCrc buf then (st, -1)
    else
      let info := pqInfo st.flash
      ({ st with
        flash := spiFlashWrite (eraseRange st.flash info.offset info.size) info.offset
          pqBinaryUnitSize fun i => buf.getD i 0 }, 0)
  else (st, -1)

def nvmCheckPqDbById (id : Nat) (mem mem' : Bool) (st : Store) : Store × Int :=
  if mem = true ∧ ValidId id then
    let defPqCrc := calPqCrc (activeTable st)
    let buf := nvmReadPqDbById st.flash id
    if calPqCrc buf ≠ binPqCrc buf then (st, -1)
    else if defPqCrc ≠ calPqCrc buf then nvmSwitchPqDbById id mem' st
    else (st, 0)
  else (st, -1)

/-- The id goes first. -/
def nvmSwitchProjectId (id : Nat) (ok mem : Bool) (st : Store) : Store × Int :=
  if ValidId id then
    let r := nvmWriteProjectId id ok st
    if r.2 = 0 then nvmSwitchPqDbById id mem r.1 else (r.1, -1)
  else (st, -1)

/-! ## Runs -/

inductive Op where
  | switchProjectId (id : Nat) (ok mem : Bool)
  | switchPqDbById (id : Nat) (mem : Bool)
  | checkPqDbById (id : Nat) (mem mem' : Bool)

def step (st : Store) : Op → Store × Int
  | .switchProjectId id ok mem => nvmSwitchProjectId id ok mem st
  | .switchPqDbById id mem => nvmSwitchPqDbById id mem st
  | .checkPqDbById id mem mem' => nvmCheckPqDbById id mem mem' st

/-- What is read for the id has its CRC. -/
def Sealed (buf : List Byte) : Prop := calPqCrc buf = binPqCrc buf

instance (buf : List Byte) : Decidable (Sealed buf) := inferInstanceAs (Decidable (_ = _))

/-- The packer's header for a file of all binaries, and each of them where the packer puts it, as far as
the flash goes and the records in the user area leave it; each is sealed, and none a blank flash. -/
structure Packed (f : Mem) (bins : Nat → List Byte) : Prop where
  info : pqInfo f = Tool.pqData (pqBinaryUnitSize * ccPanelMaxCount)
  placed : ∀ id, id < ccPanelMaxCount → ∀ i, i < pqBinaryUnitSize → packedAddr id + i < configSpiSize →
    (packedAddr id + i < userCriDataStart ∨ userCriDataStart + userCriDataSize ≤ packedAddr id + i) →
    f (packedAddr id + i) = (bins id).getD i 0
  length : ∀ id, id < ccPanelMaxCount → (bins id).length = pqBinaryUnitSize
  sealed : ∀ id, id < ccPanelMaxCount → Sealed (bins id)
  notBlank : ∀ id, id < ccPanelMaxCount → bins id ≠ List.replicate pqBinaryUnitSize 0xFF

/-- `gCriData` is as it is in the flash. -/
def Store.Synced (st : Store) : Prop :=
  st.prjId.read 0 criPrjIdSize = st.flash.read userCriDataStart criPrjIdSize

/-- The range of an id has no byte of the user and factory areas. -/
def Outside (id : Nat) : Prop :=
  ∀ j, pqAddr id ≤ j → j < pqAddr id + pqBinaryUnitSize →
    ¬ (fbcUserStart ≤ j ∧ j < fbcUserStart + fbcUserSize) ∧
    ¬ (fbcFactoryStart ≤ j ∧ j < fbcFactoryStart + fbcFactorySize)

/-- No byte is in the ranges of both. -/
def Apart (id id' : Nat) : Prop :=
  ∀ j, pqAddr id ≤ j → j < pqAddr id + pqBinaryUnitSize →
    ¬ (pqAddr id' ≤ j ∧ j < pqAddr id' + pqBinaryUnitSize)

/-- The bytes at the places of the binaries are the same, as far as the flash goes. -/
def Kept (f f' : Mem) : Prop :=
  ∀ id, id < ccPanelMaxCount → ∀ i, i < pqBinaryUnitSize → packedAddr id + i < configSpiSize →
    f' (packedAddr id + i) = f (packedAddr id + i)

/-- The binaries are left, and a switch does all of it or nothing. -/
def Right (bins : Nat → List Byte) (st : Store) (op : Op) : Prop :=
  Kept st.flash (step st op).1.flash ∧
    ∀ id ok mem, op = .switchProjectId id ok mem →
      ((step st op).2 = 0 →
        nvmReadProjectId (step st op).1 = id ∧ activeTable (step st op).1 = bins id) ∧
      ((step st op).2 = -1 → nvmReadProjectId (step st op).1 = nvmReadProjectId st ∧
        activeTable (step st op).1 = activeTable st)

/-- Nothing is switched, and no other id stored. -/
def Refused (bins : Nat → List Byte) (st : Store) : Op → Prop
  | .switchProjectId id ok mem => ¬ ValidId id ∨ ok = false ∨
    (mem = false ∨ ¬ Sealed (nvmReadPqDbById st.flash id)) ∧
      st.flash.read userCriDataStart criPrjIdSize = prjRecord id
  | .switchPqDbById id mem => mem = false ∨ ¬ ValidId id ∨ ¬ Sealed (nvmReadPqDbById st.flash id)
  | .checkPqDbById id mem mem' =>
    mem = false ∨ ¬ ValidId id ∨ ¬ Sealed (nvmReadPqDbById st.flash id) ∨
      calPqCrc (bins 0) = calPqCrc (nvmReadPqDbById st.flash id) ∨ mem' = false

/-! ## Addresses -/

theorem pqAddr_eq (id : Nat) : pqAddr id =
    if id ≤ 18 then 0x1A3000 + 0x4000 * id else 0x1F0000 + 0x4000 * (id - 19) := by
  unfold pqAddr
  rw [show rdFirstEndId = 18 from rfl, Nat.sub_sub]
  rfl

theorem outside_iff {id : Nat} (hid : id < ccPanelMaxCount) :
    Outside id ↔ id < 18 ∨ 23 ≤ id := by
  unfold Outside ccPanelMaxCount fbcUserStart fbcUserSize fbcFactoryStart fbcFactorySize
    pqBinaryUnitSize at *
  rw [pqAddr_eq]
  constructor
  · intro h
    by_contra hin
    by_cases h18 : id = 18
    · subst h18
      exact (h 0x1EE000 (by decide) (by decide)).1 (by decide)
    · rw [if_neg (by omega)] at h
      exact (h _ (le_refl _) (by omega)).2 (by omega)
  · intro h j
    split <;> omega

theorem apart_of_ne {id id' : Nat} (hne : id ≠ id') : Apart id id' := by
  unfold Apart pqBinaryUnitSize
  rw [pqAddr_eq, pqAddr_eq]
  intro j
  split <;> split <;> omega

/-- Up to id 18 the reader reads where the packer writes. -/
theorem pqAddr_packed {id : Nat} (h : id ≤ 18) : pqAddr id = packedAddr id := by
  rw [pqAddr_eq, if_pos h]
  rfl

/-- From id 19 on it reads a block of `0x1000` bytes further. -/
theorem pqAddr_behind {id : Nat} (h : 19 ≤ id) : pqAddr id = packedAddr id + 0x1000 := by
  rw [pqAddr_eq, if_neg (by omega)]
  unfold packedAddr pqBinaryStart pqBinaryUnitSize
  omega

/-! ## What a switch does -/

section
variable {f f' : Mem} {bins : Nat → List Byte} {st : Store} {id : Nat}

theorem read_const {c : Byte} {o n : Nat} (h : ∀ i, i < n → f (o + i) = c) :
    f.read o n = List.replicate n c :=
  Mem.eq_read (List.length_replicate ..) fun i hi => by
    rw [h i hi, List.getD_eq_getElem?_getD, List.getElem?_replicate_of_lt hi, Option.getD_some]

/-- The whole of a binary is kept. -/
theorem Kept.read (h : Kept f f') (hid : id < ccPanelMaxCount)
    (hfit : packedAddr id + pqBinaryUnitSize ≤ configSpiSize) :
    f'.read (packedAddr id) pqBinaryUnitSize = f.read (packedAddr id) pqBinaryUnitSize :=
  Mem.read_congr fun i hi => h id hid i hi (by omega)

/-- What is read for the ids in front of the user area. -/
theorem Packed.read (h : Packed f bins) (hid : id < 18) : nvmReadPqDbById f id = bins id := by
  have hlt : id < ccPanelMaxCount := by
    unfold ccPanelMaxCount
    omega
  have hbelow : packedAddr id + pqBinaryUnitSize ≤ userCriDataStart := by
    unfold packedAddr pqBinaryStart pqBinaryUnitSize userCriDataStart fbcUserStart
    omega
  have hspi : userCriDataStart ≤ configSpiSize := by decide
  rw [nvmReadPqDbById, pqAddr_packed (by omega)]
  exact Mem.eq_read (h.length id hlt) fun i hi =>
    h.placed id hlt i hi (by omega) (.inl (by omega))

/-- The second binary is erased, and not written. -/
theorem erased_second (hinfo : pqInfo f = Tool.pqData (pqBinaryUnitSize * ccPanelMaxCount))
    (buf : Mem) : (spiFlashWrite (eraseRange f (pqInfo f).offset (pqInfo f).size)
      (pqInfo f).offset pqBinaryUnitSize buf).read (packedAddr 1) pqBinaryUnitSize =
        List.replicate pqBinaryUnitSize 0xFF := by
  refine read_const fun i hi => ?_
  rw [hinfo]
  unfold Tool.pqData packedAddr pqBinaryUnitSize ccPanelMaxCount pqBinaryStart spiFlashWrite
    eraseRange at *
  dsimp only
  rw [if_neg (by omega), if_pos (by omega)]

/-- A switch leaves everything, or the second binary is blank. -/
theorem switch_cases (h : pqInfo st.flash = Tool.pqData (pqBinaryUnitSize * ccPanelMaxCount))
    (id : Nat) (mem : Bool) :
    ((mem = false ∨ ¬ ValidId id ∨ ¬ Sealed (nvmReadPqDbById st.flash id)) ∧
      nvmSwitchPqDbById id mem st = (st, -1)) ∨
    ((mem = true ∧ ValidId id ∧ Sealed (nvmReadPqDbById st.flash id)) ∧
      (nvmSwitchPqDbById id mem st).1.flash.read (packedAddr 1) pqBinaryUnitSize =
        List.replicate pqBinaryUnitSize 0xFF) := by
  unfold nvmSwitchPqDbById
  dsimp only
  by_cases hok : mem = true ∧ ValidId id
  · rw [if_pos hok]
    by_cases hsealed : calPqCrc (nvmReadPqDbById st.flash id) = binPqCrc (nvmReadPqDbById st.flash id)
    · rw [if_neg (not_not.mpr hsealed)]
      exact .inr ⟨⟨hok.1, hok.2, hsealed⟩,
        erased_second h fun i => (nvmReadPqDbById st.flash id).getD i 0⟩
    · rw [if_pos hsealed]
      exact .inl ⟨.inr (.inr hsealed), rfl⟩
  · rw [if_neg hok]
    refine .inl ⟨?_, rfl⟩
    rcases not_and_or.mp hok with hmem | hid
    · exact .inl (by simpa using hmem)
    · exact .inr (.inl hid)

/-- A blank second binary is not the one that the packer put there. -/
theorem Packed.not_kept (h : Packed f bins)
    (hblank : f'.read (packedAddr 1) pqBinaryUnitSize = List.replicate pqBinaryUnitSize 0xFF) :
    ¬ Kept f f' := by
  intro hkept
  have hone : 1 < 18 := by decide
  have hread := hkept.read (hone.trans (by decide)) (by decide)
  have hbin := h.read hone
  rw [nvmReadPqDbById, pqAddr_packed (by decide)] at hbin
  rw [hblank, hbin] at hread
  exact h.notBlank 1 (by decide) hread.symm

/-- The record of the project id is inside the place of the binary of id 18. -/
theorem Kept.record (h : Kept f f') :
    f'.read userCriDataStart criPrjIdSize = f.read userCriDataStart criPrjIdSize := by
  have hread (f : Mem) : ((f.read (packedAddr 18) pqBinaryUnitSize).drop 0x3400).take criPrjIdSize =
      f.read userCriDataStart criPrjIdSize := by
    rw [Mem.drop_read, Mem.take_read _ _ (by decide)]
    rfl
  rw [← hread f, ← hread f', h.read (by decide) (by decide)]

theorem length_prjRecord (id : Nat) : (prjRecord id).length = criPrjIdSize := by
  simp [prjRecord, criPrjIdSize]

/-- The packer's headers are below the user area. -/
theorem pqInfo_copy {o : Nat} {d : List Byte} (ho : userCriDataStart ≤ o) :
    pqInfo (f.copy o d) = pqInfo f := by
  have hread (a : Nat) (ha : a + 4 ≤ userCriDataStart) : u32At (f.copy o d) a = u32At f a := by
    unfold u32At
    congr 1
    exact Mem.read_congr fun i hi => Mem.copy_of_lt (by omega)
  change Region.mk (u32At (f.copy o d) _) (u32At (f.copy o d) _) = Region.mk (u32At f _) (u32At f _)
  rw [hread _ (by decide), hread _ (by decide)]

/-- A record that is there already. -/
theorem copy_same {o : Nat} {d : List Byte} (h : f.read o d.length = d) : f.copy o d = f := by
  funext j
  unfold Mem.copy
  split
  · rename_i hj
    rw [← h, Mem.getD_read (by omega)]
    congr 1
    omega
  · rfl

/-! ## One call -/

/-- The table in use is the first binary. -/
theorem Packed.activeTable (h : Packed st.flash bins) : activeTable st = bins 0 := by
  rw [← h.read (by decide), nvmReadPqDbById, pqAddr_packed (Nat.zero_le 18), Pq.activeTable, h.info]
  rfl

/-- A step that leaves everything. -/
theorem right_of_same {op : Op} (hst : (step st op).1 = st)
    (hret : (step st op).2 ≠ 0 ∨ ∀ id ok mem, op ≠ .switchProjectId id ok mem) :
    Right bins st op := by
  refine ⟨?_, fun id ok mem hop => ⟨fun h0 => ?_, fun _ => ?_⟩⟩
  · rw [hst]
    exact fun _ _ _ _ _ => rfl
  · exact hret.elim (fun hne => absurd h0 hne) fun hne => absurd hop (hne id ok mem)
  · rw [hst]
    exact ⟨rfl, rfl⟩

/-- The step is right exactly when it is refused, and then leaves everything. -/
def Settled (bins : Nat → List Byte) (st : Store) (op : Op) : Prop :=
  (Right bins st op ↔ Refused bins st op) ∧ (Refused bins st op → (step st op).1 = st)

theorem settled_of_refused {op : Op} {ret : Int} (hstep : step st op = (st, ret))
    (hret : ret ≠ 0 ∨ ∀ id ok mem, op ≠ .switchProjectId id ok mem) (href : Refused bins st op) :
    Settled bins st op := by
  have hst : (step st op).1 = st := congrArg Prod.fst hstep
  have hright : Right bins st op := by
    apply right_of_same hst
    rwa [hstep]
  exact ⟨iff_of_true hright href, fun _ => hst⟩

theorem settled_of_changed {op : Op} (hnot : ¬ Refused bins st op)
    (hkept : ¬ Kept st.flash (step st op).1.flash) : Settled bins st op :=
  ⟨iff_of_false (fun hright => hkept hright.1) hnot, fun href => absurd href hnot⟩

theorem settled_switchPq (h : Packed st.flash bins) (id : Nat) (mem : Bool) :
    Settled bins st (.switchPqDbById id mem) := by
  rcases switch_cases h.info id mem with ⟨href, hstep⟩ | ⟨⟨hmem, hid, hsealed⟩, hblank⟩
  · exact settled_of_refused hstep (.inr fun _ _ _ h => Op.noConfusion h) href
  · refine settled_of_changed ?_ (h.not_kept hblank)
    simp [Refused, hmem, hid, hsealed]

theorem check_eq (h : Packed st.flash bins) {id : Nat} {mem mem' : Bool} :
    nvmCheckPqDbById id mem mem' st =
      if mem = true ∧ ValidId id ∧ Sealed (nvmReadPqDbById st.flash id) then
        if calPqCrc (bins 0) = calPqCrc (nvmReadPqDbById st.flash id) then (st, 0)
        else nvmSwitchPqDbById id mem' st
      else (st, -1) := by
  unfold nvmCheckPqDbById
  dsimp only
  rw [h.activeTable]
  by_cases hok : mem = true ∧ ValidId id
  · rw [if_pos hok]
    by_cases hsealed : calPqCrc (nvmReadPqDbById st.flash id) = binPqCrc (nvmReadPqDbById st.flash id)
    · have hall : mem = true ∧ ValidId id ∧ Sealed (nvmReadPqDbById st.flash id) :=
        ⟨hok.1, hok.2, hsealed⟩
      rw [if_neg (not_not.mpr hsealed), ite_not, if_pos hall]
    · rw [if_pos hsealed, if_neg fun hall => hsealed hall.2.2]
  · rw [if_neg hok, if_neg fun hall => hok ⟨hall.1, hall.2.1⟩]

theorem settled_check (h : Packed st.flash bins) (id : Nat) (mem mem' : Bool) :
    Settled bins st (.checkPqDbById id mem mem') := by
  have hstep : step st (.checkPqDbById id mem mem') = _ := check_eq h
  by_cases hok : mem = true ∧ ValidId id ∧ Sealed (nvmReadPqDbById st.flash id)
  · rw [if_pos hok] at hstep
    by_cases hcrc : calPqCrc (bins 0) = calPqCrc (nvmReadPqDbById st.flash id)
    · rw [if_pos hcrc] at hstep
      apply settled_of_refused hstep (.inr fun _ _ _ h => Op.noConfusion h)
      exact .inr (.inr (.inr (.inl hcrc)))
    · -- the check goes on as a switch
      rw [if_neg hcrc] at hstep
      have hsame : step st (.checkPqDbById id mem mem') = step st (.switchPqDbById id mem') := hstep
      have href : Refused bins st (.checkPqDbById id mem mem') ↔
          Refused bins st (.switchPqDbById id mem') := by
        simp [Refused, hok, hcrc]
      have hright : Right bins st (.checkPqDbById id mem mem') ↔
          Right bins st (.switchPqDbById id mem') := by
        unfold Right
        rw [hsame]
        exact and_congr_right fun _ =>
          iff_of_true (fun _ _ _ h => Op.noConfusion h) fun _ _ _ h => Op.noConfusion h
      unfold Settled
      rw [href, hright, hsame]
      exact settled_switchPq h id mem'
  · rw [if_neg hok] at hstep
    apply settled_of_refused hstep (.inr fun _ _ _ h => Op.noConfusion h)
    rcases not_and_or.mp hok with hmem | hrest
    · exact .inl (by simpa using hmem)
    · rcases not_and_or.mp hrest with hid | hsealed
      · exact .inr (.inl hid)
      · exact .inr (.inr (.inl hsealed))

/-- The id is stored, and with it bytes at the place of the binary of id 18 are others; or it was there
before. -/
theorem write_cases (hsync : st.Synced) (hid : ValidId id) (ok : Bool) :
    (ok = false ∧ nvmWriteProjectId id ok st = (st, -1)) ∨
    (ok = true ∧ st.flash.read userCriDataStart criPrjIdSize = prjRecord id ∧
      nvmWriteProjectId id ok st = (st, 0)) ∨
    (ok = true ∧ st.flash.read userCriDataStart criPrjIdSize ≠ prjRecord id ∧
      ∃ st', nvmWriteProjectId id ok st = (st', 0) ∧ pqInfo st'.flash = pqInfo st.flash ∧
        ¬ Kept st.flash st'.flash) := by
  cases ok with
  | false => exact .inl ⟨rfl, if_neg fun h => absurd h.2 (by decide)⟩
  | true =>
    have hwrite : nvmWriteProjectId id true st = (⟨st.prjId.copy 0 (prjRecord id),
        st.flash.copy userCriDataStart (prjRecord id)⟩, 0) := by
      unfold nvmWriteProjectId spiFlashRandomWrite
      rw [if_pos ⟨hid, rfl⟩, if_pos rfl]
    by_cases hsame : st.flash.read userCriDataStart criPrjIdSize = prjRecord id
    · refine .inr (.inl ⟨rfl, hsame, ?_⟩)
      have hram : st.prjId.read 0 criPrjIdSize = prjRecord id := hsync.trans hsame
      rw [hwrite, copy_same (by rwa [length_prjRecord]), copy_same (by rwa [length_prjRecord])]
    · refine .inr (.inr ⟨rfl, hsame, _, hwrite, pqInfo_copy (le_refl _), fun hkept => hsame ?_⟩)
      have hread := Mem.read_copy_at st.flash userCriDataStart (prjRecord id)
      rw [length_prjRecord, hkept.record] at hread
      exact hread

theorem settled_switchProject (h : Packed st.flash bins) (hsync : st.Synced) (id : Nat)
    (ok mem : Bool) : Settled bins st (.switchProjectId id ok mem) := by
  have hstep : step st (.switchProjectId id ok mem) = if ValidId id then
      if (nvmWriteProjectId id ok st).2 = 0 then
        nvmSwitchPqDbById id mem (nvmWriteProjectId id ok st).1
      else ((nvmWriteProjectId id ok st).1, -1)
    else (st, -1) := rfl
  have hminus : (-1 : Int) ≠ 0 := by decide
  by_cases hid : ValidId id
  · rw [if_pos hid] at hstep
    obtain ⟨rfl, hw⟩ | ⟨rfl, hsame, hw⟩ | ⟨rfl, hdiff, st', hw, hinfo, hchanged⟩ :=
      write_cases hsync hid ok
    · rw [hw, if_neg hminus] at hstep
      exact settled_of_refused hstep (.inl hminus) (.inr (.inl rfl))
    · -- the id is there already: it is the switch that matters
      rw [hw, if_pos rfl] at hstep
      rcases switch_cases h.info id mem with ⟨href, hswitch⟩ | ⟨⟨hmem, -, hsealed⟩, hblank⟩
      · apply settled_of_refused (hstep.trans hswitch) (.inl hminus)
        exact .inr (.inr ⟨href.imp_right fun href => href.resolve_left (not_not.mpr hid), hsame⟩)
      · apply settled_of_changed
        · simp [Refused, hid, hmem, hsealed]
        · rw [hstep]
          exact h.not_kept hblank
    · rw [hw, if_pos rfl] at hstep
      apply settled_of_changed
      · simp [Refused, hid, hdiff]
      · rw [hstep]
        rcases switch_cases (hinfo.trans h.info) id mem with ⟨-, hswitch⟩ | ⟨-, hblank⟩
        · rw [hswitch]
          exact hchanged
        · exact h.not_kept hblank
  · rw [if_neg hid] at hstep
    exact settled_of_refused hstep (.inl hminus) (.inl hid)

end

theorem right_step {bins : Nat → List Byte} (st : Store) (op : Op)
    (h : Packed st.flash bins ∧ st.Synced) :
    (Right bins st op ↔ Refused bins st op) ∧
      (Refused bins st op → Packed (step st op).1.flash bins ∧ (step st op).1.Synced) := by
  have hstep : Settled bins st op := by
    cases op with
    | switchProjectId id ok mem => exact settled_switchProject h.1 h.2 id ok mem
    | switchPqDbById id mem => exact settled_switchPq h.1 id mem
    | checkPqDbById id mem mem' => exact settled_check h.1 id mem mem'
  refine ⟨hstep.1, fun href => ?_⟩
  rw [hstep.2 href]
  exact h

/-- **The store**: the ranges are apart, those of 18 to 22 reach into the user and factory areas, the
binaries of the ids below 18 are read, and from 19 on something else, and the binaries stay in a run,
with switches that do all or nothing, when nothing is switched. -/
theorem store_runs {bins : Nat → List Byte} {st : Store} (hp : Packed st.flash bins)
    (hsync : st.Synced) (ops : List Op) :
    (∀ id, id < ccPanelMaxCount → (Outside id ↔ id < 18 ∨ 23 ≤ id)) ∧
    (∀ id id', id ≠ id' → Apart id id') ∧
    (∀ id, id < 18 → nvmReadPqDbById st.flash id = bins id) ∧
    (∀ id, 19 ≤ id → pqAddr id = packedAddr id + 0x1000) ∧
    (Each (Right bins) step st ops ↔ Each (Refused bins) step st ops) :=
  ⟨fun _ hid => outside_iff hid, fun _ _ hne => apart_of_ne hne, fun _ hid => hp.read hid,
    fun _ hid => pqAddr_behind hid, each_iff right_step ⟨hp, hsync⟩⟩

/-! ## A packed flash -/

theorem pqbin_sealed (file : List Byte) : Sealed (pqbin file) := by
  unfold Sealed calPqCrc binPqCrc pqbin
  rw [List.take_left' (Mem.length_read ..), List.drop_left' (Mem.length_read ..),
    ofLe_leBytes (BitVec.isLt _)]

/-- **What the packer makes** is a packed flash: a binary for each id that leaves room for the CRC, and
the header for the file of them. -/
theorem packed_spiAll {f : Mem} {spi : List Byte} {files : List (List Byte)}
    (hf : ∀ j, j < configSpiSize → f j = spiAll (spi ++ pqFile files) j)
    (hspi : spi.length = pqBinaryStart) (hfiles : files.length = ccPanelMaxCount)
    (hinfo : pqInfo f = Tool.pqData (pqFile files).length)
    (hroom : ∀ file ∈ files, file.length < pqBinaryUnitSize - 4) :
    Packed f fun id => pqbin (files.getD id []) where
  info := by rw [hinfo, length_pqFile, hfiles]
  placed id hid i hi hfit hcri := by
    have hlt : id < files.length := hfiles ▸ hid
    rw [hf _ hfit, spiAll_packed hspi hlt hi hcri, List.getD_eq_getElem _ _ hlt]
  length _ _ := length_pqbin _
  sealed _ _ := pqbin_sealed _
  notBlank id hid := by
    have hlt : id < files.length := hfiles ▸ hid
    rw [List.getD_eq_getElem _ _ hlt]
    exact pqbin_ne_blank (hroom _ (List.getElem_mem hlt))

/-- A binary of one byte for each id. -/
def oneByteFiles : List (List Byte) := (List.range ccPanelMaxCount).map fun id => [BitVec.ofNat 8 id]

/-- Where the header of the binaries has their region. -/
def infoAddr : Nat := Section.s0.infoOffset + partitionInfoSize * (Partition.pq.index - 1) + 8

/-- A file in front of the binaries with nothing but their header. -/
def headerFile : List Byte :=
  Mem.read (Mem.copy (fun _ => 0) infoAddr
    (leBytes 4 pqBinaryStart ++ leBytes 4 (pqBinaryUnitSize * ccPanelMaxCount))) 0 pqBinaryStart

def packedFlash : Mem := spiAll (headerFile ++ pqFile oneByteFiles)

def packedStore : Store := ⟨fun i => packedFlash (userCriDataStart + i), packedFlash⟩

theorem packedFlash_info : pqInfo packedFlash = Tool.pqData (pqFile oneByteFiles).length := by
  have hlow (i : Nat) (hi : i < 8) : packedFlash (infoAddr + i) =
      Mem.copy (fun _ => 0) infoAddr
        (leBytes 4 pqBinaryStart ++ leBytes 4 (pqBinaryUnitSize * ccPanelMaxCount))
        (infoAddr + i) := by
    have haddr : infoAddr + 8 ≤ pqBinaryStart ∧ pqBinaryStart ≤ userCriDataStart := by decide
    have hlt : infoAddr + i < headerFile.length := by
      rw [headerFile, Mem.length_read]
      omega
    rw [packedFlash, spiAll_of_outside (.inl (by omega)), Mem.copy,
      if_pos ⟨Nat.zero_le _, by rw [List.length_append]; omega⟩, Nat.sub_zero,
      List.getD_append _ _ _ _ hlt, headerFile, Mem.getD_read (by omega), Nat.zero_add]
  have hread := (Mem.read_congr hlow).trans (Mem.read_copy_at ..)
  obtain ⟨hoffset, hsize⟩ := Mem.read_of_append hread
  rw [length_leBytes] at hoffset hsize
  rw [length_leBytes] at hsize
  have hlen : (pqFile oneByteFiles).length = pqBinaryUnitSize * ccPanelMaxCount := by
    rw [length_pqFile]
    rfl
  rw [hlen]
  change Region.mk (ofLe (packedFlash.read infoAddr 4))
    (ofLe (packedFlash.read (infoAddr + 4) 4)) = _
  rw [hoffset, hsize, ofLe_leBytes (by decide), ofLe_leBytes (by decide)]
  rfl

theorem packedFlash_packed : Packed packedFlash fun id => pqbin (oneByteFiles.getD id []) :=
  packed_spiAll (fun _ _ => rfl) (Mem.length_read ..) rfl packedFlash_info (by decide)

theorem packedStore_synced : packedStore.Synced :=
  Mem.read_congr fun i _ => by rw [Nat.zero_add]; rfl

/-- Calls that are refused, or find the right table. -/
theorem store_unswitched :
    Each (Right fun id => pqbin (oneByteFiles.getD id [])) step packedStore
      [.checkPqDbById 0 true true, .switchPqDbById 40 true, .switchProjectId 2 false true] :=
  (store_runs packedFlash_packed packedStore_synced _).2.2.2.2.mpr
    ⟨.inr (.inr (.inr (.inl (congrArg calPqCrc (packedFlash_packed.read (by decide)).symm)))),
      .inr (.inl (by decide)), .inr (.inl rfl), trivial⟩

/-- **The first switch**: id 18 has bytes of the user area, id 19 is not read where it is, and a switch
to id 0 erases the others. -/
theorem not_right_switch : ¬ Outside 18 ∧ pqAddr 19 ≠ packedAddr 19 ∧
    ¬ Each (Right fun id => pqbin (oneByteFiles.getD id [])) step packedStore
      [.switchProjectId 0 true true] := by
  refine ⟨?_, by decide, ?_⟩
  · rw [outside_iff (by decide)]
    decide
  · rw [each_iff right_step ⟨packedFlash_packed, packedStore_synced⟩]
    have hsealed : Sealed (nvmReadPqDbById packedFlash 0) := by
      rw [packedFlash_packed.read (by decide)]
      exact pqbin_sealed _
    rintro ⟨hid | hok | ⟨hmem | hread, -⟩, -⟩
    · exact hid (by decide)
    · cases hok
    · cases hmem
    · exact hread hsealed

end VendorAmlogic.Fbc.Pq
