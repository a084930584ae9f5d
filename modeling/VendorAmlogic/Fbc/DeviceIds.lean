import VendorAmlogic.Fbc.Flash
import VendorAmlogic.Lib.CString
import VendorAmlogic.Lib.Run

/-!
# Device id and serial number

`nvm_write_device_id` and `nvm_write_factory_sn` of `project/user_setting.c`
keep each string twice: in a checked record of `cri_data_t`, and where an older
version had it, in `nvm_user_t`. Both structures are byte images here, in
memory and in the flash; a `spi_flash_random_write` that fails leaves the flash
as it was. The writers take no notice of a failure, and the readers prefer the
record.
-/

namespace VendorAmlogic.Fbc.Ids

open VendorAmlogic.Lib

/-! ## Layout -/

/-- `struct cri_dev_id` or `struct cri_fac_sn`, and the member of `nvm_user_t` for the same
string. -/
structure Record where
  offset : Nat
  bufLen : Nat
  size : Nat
  copyAt : Nat
  copyLen : Nat
  room : 12 + bufLen ≤ size
  short : bufLen < 2 ^ 32

def ccFactorySnSize : Nat := 20
def ccCriReversedLen : Nat := 112
def ccCriDeviceIdLen : Nat := 124
def ccCriFacSnLen : Nat := 128

/-- `sizeof (struct cri_prj_id)`. -/
def criPrjIdSize : Nat := 16

/-- Behind `project_id`, `ver1`, `ver2` and `db_ver`. -/
def devId : Record where
  offset := criPrjIdSize + ccCriReversedLen
  bufLen := ccCriDeviceIdLen
  size := 12 + ccCriDeviceIdLen + 8
  copyAt := 16
  copyLen := ccCriDeviceIdLen
  room := by decide
  short := by decide

def facSn : Record where
  offset := criPrjIdSize + ccCriReversedLen + devId.size
  bufLen := ccCriFacSnLen
  size := 12 + ccCriFacSnLen + 4
  copyAt := devId.copyAt + ccCriDeviceIdLen
  copyLen := ccFactorySnSize
  room := by decide
  short := by decide

/-- `sizeof (cri_data_t)`. -/
def criDataSize : Nat := facSn.offset + facSn.size

/-- `sizeof (nvm_user_t)`, with enumerations of four bytes: `systems_t`, `audio_control_t` and
`user_pq_t`. -/
def nvmUserSize : Nat := 192 + 12 + (16 + 16 + 4 * (5 * 20))

def userCriDataStart : Nat := fbcUserStart + 0x400
def userSettingStart : Nat := userCriDataStart + 0x200

/-- `gCriData` and `g_nvm_user`, and the flash. -/
structure Setting where
  gCriData : Mem
  gNvmUser : Mem
  flash : Mem

/-! ## Reading -/

/-- The three checks of a reader. -/
def Record.Sealed (r : Record) (cri : Mem) : Prop :=
  (crc32 0 (cri.read r.offset 4)).toNat = u32At cri (r.offset + 4) ∧
    u32At cri r.offset < r.bufLen ∧
    (crc32 0 (cri.read (r.offset + 12) (u32At cri r.offset))).toNat = u32At cri (r.offset + 8)

instance (r : Record) (cri : Mem) : Decidable (r.Sealed cri) :=
  inferInstanceAs (Decidable (_ ∧ _))

/-- The string that a reader returns; one without an end stops with its structure here. -/
def Record.text (r : Record) (cri user : Mem) : List Byte :=
  if r.Sealed cri then cstr (cri.read (r.offset + 12) (criDataSize - (r.offset + 12)))
  else cstr (user.read r.copyAt (nvmUserSize - r.copyAt))

def nvmReadDeviceId (st : Setting) : List Byte := devId.text st.gCriData st.gNvmUser

def nvmReadFactorySn (st : Setting) : List Byte := facSn.text st.gCriData st.gNvmUser

/-- `nvm_readallusersetting (&g_nvm_user)`. -/
def nvmReadallusersetting (st : Setting) : Setting where
  gNvmUser := st.gNvmUser.copy 0 (st.flash.read userSettingStart nvmUserSize)
  gCriData := (st.gCriData.copy 0 (List.replicate criDataSize 0)).copy 0
    (st.flash.read userCriDataStart criDataSize)
  flash := st.flash

/-! ## Writing -/

def spiFlashRandomWrite (ok : Bool) (flash : Mem) (offset : Nat) (data : List Byte) : Mem :=
  if ok then flash.copy offset data else flash

/-- `tmp_id` or `tmp_sn`. -/
def Record.bytes (r : Record) (s : List Byte) : List Byte :=
  leBytes 4 s.length ++ (leBytes 4 (crc32 0 (leBytes 4 s.length)).toNat ++
    (leBytes 4 (crc32 0 s).toNat ++ (s ++ List.replicate (r.size - 12 - s.length) 0)))

/-- The record goes to the flash and, if that is fine, to `gCriData`. -/
def Record.saveRecord (r : Record) (s : List Byte) (ok : Bool) (st : Setting) : Setting where
  gCriData := if ok then st.gCriData.copy r.offset (r.bytes s) else st.gCriData
  gNvmUser := st.gNvmUser
  flash := spiFlashRandomWrite ok st.flash (userCriDataStart + r.offset) (r.bytes s)

/-- The string goes to `g_nvm_user`, and all of that to the flash. -/
def Record.saveCopy (r : Record) (s : List Byte) (ok : Bool) (st : Setting) : Setting where
  gCriData := st.gCriData
  gNvmUser := st.gNvmUser.copy r.copyAt (s ++ [0])
  flash := spiFlashRandomWrite ok st.flash userSettingStart
    ((st.gNvmUser.copy r.copyAt (s ++ [0])).read 0 nvmUserSize)

/-- With what becomes of the two writes. -/
def nvmWriteDeviceId (device : List Byte) (criOk userOk : Bool) (st : Setting) : Setting × Int :=
  let s := cstr device
  if s.length < ccCriDeviceIdLen then (devId.saveCopy s userOk (devId.saveRecord s criOk st), 0)
  else (st, -1)

def nvmWriteFactorySn (pSn : List Byte) (criOk userOk : Bool) (st : Setting) : Setting × Int :=
  let s := cstr pSn
  if s.length < ccCriFacSnLen then
    let st := facSn.saveRecord s criOk st
    if s.length < ccFactorySnSize then (facSn.saveCopy s userOk st, 0) else (st, 0)
  else (st, -1)

/-! ## Runs -/

inductive Op where
  | writeDeviceId (device : List Byte) (criOk userOk : Bool)
  | writeFactorySn (pSn : List Byte) (criOk userOk : Bool)
  | readDeviceId
  | readFactorySn
  | readall

inductive Out where
  | ret (code : Int)
  | text (s : List Byte)
  | none
  deriving DecidableEq

def step (st : Setting) : Op → Setting × Out
  | .writeDeviceId device criOk userOk =>
    let r := nvmWriteDeviceId device criOk userOk st
    (r.1, .ret r.2)
  | .writeFactorySn pSn criOk userOk =>
    let r := nvmWriteFactorySn pSn criOk userOk st
    (r.1, .ret r.2)
  | .readDeviceId => (st, .text (nvmReadDeviceId st))
  | .readFactorySn => (st, .text (nvmReadFactorySn st))
  | .readall => (nvmReadallusersetting st, .none)

/-- What the device is called. -/
structure Names where
  device : List Byte
  sn : List Byte

/-- Two variables: an accepted string stays until the next one. -/
def spec (t : Names) : Op → Names × Out
  | .writeDeviceId device _ _ =>
    if (cstr device).length < ccCriDeviceIdLen then ({ t with device := cstr device }, .ret 0)
    else (t, .ret (-1))
  | .writeFactorySn pSn _ _ =>
    if (cstr pSn).length < ccCriFacSnLen then ({ t with sn := cstr pSn }, .ret 0)
    else (t, .ret (-1))
  | .readDeviceId => (t, .text t.device)
  | .readFactorySn => (t, .text t.sn)
  | .readall => (t, .none)

/-- Both are read as they are called. -/
def Reads (st : Setting) (t : Names) : Prop :=
  nvmReadDeviceId st = t.device ∧ nvmReadFactorySn st = t.sn

/-- A step puts out what it should, and both strings are read then, now and after a reload. -/
def Told (x : Setting × Names) (op : Op) : Prop :=
  (step x.1 op).2 = (spec x.2 op).2 ∧ Reads (step x.1 op).1 (spec x.2 op).1 ∧
    Reads (nvmReadallusersetting (step x.1 op).1) (spec x.2 op).1

/-- The record is written; or the string is there already; or there is no record that is fine, the
string fits the older place, and that is written. -/
def Record.Kept (r : Record) (cur s : List Byte) (criOk userOk : Bool) (st : Setting) : Prop :=
  s.length < r.bufLen → criOk = true ∨ s = cur ∨
    ¬ r.Sealed st.gCriData ∧ s.length < r.copyLen ∧ userOk = true

def Kept (x : Setting × Names) : Op → Prop
  | .writeDeviceId device criOk userOk => devId.Kept x.2.device (cstr device) criOk userOk x.1
  | .writeFactorySn pSn criOk userOk => facSn.Kept x.2.sn (cstr pSn) criOk userOk x.1
  | _ => True

/-! ## Stored strings -/

/-- A string with its end is in these `n` bytes. -/
structure Ends (m : Mem) (o n : Nat) (s : List Byte) : Prop where
  short : s.length < n
  noZero : ∀ b ∈ s, b ≠ 0
  bytes : m.read o (s.length + 1) = s ++ [0]

section
variable {m m' cri cri' user user' : Mem} {o n N : Nat} {s cur : List Byte} {r r' : Record}
  {st : Setting} {ok criOk userOk : Bool}

theorem Ends.cstr (h : Ends m o n s) (hN : n ≤ N) : cstr (m.read o N) = s := by
  have hlt := h.short
  rw [show N = s.length + 1 + (N - (s.length + 1)) by omega, Mem.read_add, h.bytes,
    List.append_assoc, cstr_append h.noZero]
  exact List.append_nil s

theorem Ends.congr (h : Ends m o n s) (hm : ∀ i, i < n → m' (o + i) = m (o + i)) :
    Ends m' o n s where
  short := h.short
  noZero := h.noZero
  bytes := by
    rw [← h.bytes]
    exact Mem.read_congr fun i hi => hm i (hi.trans_le h.short)

/-- What `strcpy` leaves. -/
theorem ends_copy (hs : s.length < n) (h0 : ∀ b ∈ s, b ≠ 0) : Ends (m.copy o (s ++ [0])) o n s where
  short := hs
  noZero := h0
  bytes := by
    have h := Mem.read_copy_at m o (s ++ [0])
    rwa [List.length_append] at h

theorem Record.length_bytes (hs : s.length < r.bufLen) : (r.bytes s).length = r.size := by
  have hroom := r.room
  simp only [Record.bytes, List.length_append, length_leBytes, List.length_replicate]
  omega

theorem Record.Sealed.congr (h : r.Sealed cri)
    (hc : ∀ i, r.offset ≤ i → i < r.offset + r.size → cri' i = cri i) : r.Sealed cri' := by
  have hroom := r.room
  have hread (o n : Nat) (hn : o + n ≤ r.size) :
      cri'.read (r.offset + o) n = cri.read (r.offset + o) n :=
    Mem.read_congr fun i hi => hc _ (by omega) (by omega)
  obtain ⟨hlen, hlt, hbuf⟩ := h
  have h0 := hread 0 4 (by omega)
  rw [Nat.add_zero] at h0
  refine ⟨?_, ?_, ?_⟩
  · rw [h0, u32At, hread 4 4 (by omega)]
    exact hlen
  · rw [u32At, h0]
    exact hlt
  · rw [u32At, h0, hread 12 _ (by unfold u32At at hlt; omega), u32At, hread 8 4 (by omega)]
    exact hbuf

/-- Two images that agree on the record are both fine or both not. -/
theorem Record.sealed_congr (hc : ∀ i, r.offset ≤ i → i < r.offset + r.size → cri' i = cri i) :
    r.Sealed cri' ↔ r.Sealed cri :=
  ⟨fun h => h.congr fun i h1 h2 => (hc i h1 h2).symm, fun h => h.congr hc⟩

/-- What is written is fine and has the string. -/
theorem Record.sealed_bytes (h : cri.read r.offset r.size = r.bytes s) (hs : s.length < r.bufLen)
    (h0 : ∀ b ∈ s, b ≠ 0) : r.Sealed cri ∧ Ends cri (r.offset + 12) r.bufLen s := by
  have hroom := r.room
  have hshort := r.short
  obtain ⟨hlen, hrest⟩ := Mem.read_of_append h
  obtain ⟨hlcrc, hrest⟩ := Mem.read_of_append hrest
  obtain ⟨hbcrc, hrest⟩ := Mem.read_of_append hrest
  simp only [length_leBytes, Nat.add_assoc, Nat.reduceAdd] at hlen hlcrc hbcrc hrest
  obtain ⟨htext, -⟩ := Mem.read_of_append hrest
  have hval : u32At cri r.offset = s.length := by
    rw [u32At, hlen, ofLe_leBytes (by omega)]
  refine ⟨⟨?_, ?_, ?_⟩, hs, h0, ?_⟩
  · rw [hlen, u32At, hlcrc, ofLe_leBytes (BitVec.isLt _)]
  · rw [hval]
    exact hs
  · rw [hval, htext, u32At, hbcrc, ofLe_leBytes (BitVec.isLt _)]
  · have hone : s ++ List.replicate (r.size - 12 - s.length) 0 =
        (s ++ [0]) ++ List.replicate (r.size - 12 - s.length - 1) 0 := by
      rw [List.append_assoc, List.singleton_append, ← List.replicate_succ]
      congr 2
      omega
    rw [hone] at hrest
    have hread := (Mem.read_of_append hrest).1
    rwa [List.length_append] at hread

/-! ## What is shown -/

/-- The string that is read, with its end in its own place. -/
structure Record.Shows (r : Record) (s : List Byte) (cri user : Mem) : Prop where
  inRecord : r.Sealed cri → Ends cri (r.offset + 12) r.bufLen s
  inCopy : ¬ r.Sealed cri → Ends user r.copyAt r.copyLen s

theorem Record.Shows.congr (h : r.Shows s cri user)
    (hc : ∀ i, r.offset ≤ i → i < r.offset + r.size → cri' i = cri i)
    (hu : ¬ r.Sealed cri → ∀ i, r.copyAt ≤ i → i < r.copyAt + r.copyLen → user' i = user i) :
    r.Shows s cri' user' := by
  have hroom := r.room
  have hiff := r.sealed_congr hc
  constructor
  · intro hseal
    exact (h.inRecord (hiff.1 hseal)).congr fun i hi => hc _ (by omega) (by omega)
  · intro hseal
    have hold : ¬ r.Sealed cri := fun h => hseal (hiff.2 h)
    exact (h.inCopy hold).congr fun i hi => hu hold _ (by omega) (by omega)

theorem Record.Shows.text (h : r.Shows s cri user) (hc : r.offset + r.size ≤ criDataSize)
    (hu : r.copyAt + r.copyLen ≤ nvmUserSize) : r.text cri user = s := by
  have hroom := r.room
  unfold Record.text
  split
  · rename_i hseal
    exact (h.inRecord hseal).cstr (by omega)
  · rename_i hseal
    exact (h.inCopy hseal).cstr (by omega)

/-! ## The flash and what was read of it -/

/-- The structures as the flash has them. -/
def Setting.criImage (st : Setting) : Mem := fun i => st.flash (userCriDataStart + i)

def Setting.userImage (st : Setting) : Mem := fun i => st.flash (userSettingStart + i)

/-- `gCriData` is as it is in the flash. -/
def Setting.Synced (st : Setting) : Prop := ∀ i, i < criDataSize → st.gCriData i = st.criImage i


/-- Inside both structures. -/
structure Record.Placed (r : Record) : Prop where
  record : r.offset + r.size ≤ criDataSize
  copy : r.copyAt + r.copyLen ≤ nvmUserSize

/-- Neither has bytes of the other. -/
structure Record.Apart (r r' : Record) : Prop where
  record : r.offset + r.size ≤ r'.offset ∨ r'.offset + r'.size ≤ r.offset
  copy : r.copyAt + r.copyLen ≤ r'.copyAt ∨ r'.copyAt + r'.copyLen ≤ r.copyAt

theorem devId_placed : devId.Placed := ⟨by decide, by decide⟩
theorem facSn_placed : facSn.Placed := ⟨by decide, by decide⟩
theorem devId_facSn : devId.Apart facSn := ⟨.inl (by decide), .inl (by decide)⟩
theorem facSn_devId : facSn.Apart devId := ⟨.inr (by decide), .inr (by decide)⟩

/-- The string is shown now, and after a reload. -/
structure Record.Holds (r : Record) (s : List Byte) (st : Setting) : Prop where
  now : r.Shows s st.gCriData st.gNvmUser
  stored : r.Shows s st.criImage st.userImage

/-- What a reload copies to the start of a structure. -/
theorem reload_copy (m m' : Mem) (start : Nat) {i n : Nat} (hi : i < n) :
    m'.copy 0 (m.read start n) i = m (start + i) := by
  have h : m'.copy 0 (m.read start n) (0 + i) = m (start + i) := Mem.copy_read hi
  rwa [Nat.zero_add] at h

theorem gCriData_readall {i : Nat} (hi : i < criDataSize) :
    (nvmReadallusersetting st).gCriData i = st.criImage i := by
  rw [nvmReadallusersetting]
  dsimp only
  rw [reload_copy _ _ _ hi, Setting.criImage]

theorem gNvmUser_readall {i : Nat} (hi : i < nvmUserSize) :
    (nvmReadallusersetting st).gNvmUser i = st.userImage i := by
  rw [nvmReadallusersetting]
  dsimp only
  rw [reload_copy _ _ _ hi, Setting.userImage]

theorem Record.Shows.readall (h : r.Shows s st.criImage st.userImage) (hp : r.Placed) :
    r.Shows s (nvmReadallusersetting st).gCriData (nvmReadallusersetting st).gNvmUser := by
  refine h.congr (fun i _ hi => ?_) fun _ i _ hi => ?_
  · exact gCriData_readall (hi.trans_le hp.record)
  · exact gNvmUser_readall (hi.trans_le hp.copy)

/-! ## One write -/

theorem criImage_saveRecord :
    (r.saveRecord s true st).criImage = st.criImage.copy r.offset (r.bytes s) :=
  Mem.copy_shift st.flash userCriDataStart r.offset (r.bytes s)

theorem userImage_saveRecord (hs : s.length < r.bufLen) (hp : r.Placed) :
    (r.saveRecord s ok st).userImage = st.userImage := by
  have hlen := r.length_bytes hs
  have hin := hp.record
  cases ok with
  | false => rfl
  | true =>
    funext i
    refine Mem.copy_of_le ?_
    rw [hlen]
    have hroom : userCriDataStart + criDataSize ≤ userSettingStart := by decide
    omega

theorem criImage_saveCopy {i : Nat} (hi : i < criDataSize) :
    (r.saveCopy s ok st).criImage i = st.criImage i := by
  cases ok with
  | false => rfl
  | true =>
    refine Mem.copy_of_lt ?_
    have hroom : userCriDataStart + criDataSize ≤ userSettingStart := by decide
    omega

theorem userImage_saveCopy {i : Nat} (hi : i < nvmUserSize) :
    (r.saveCopy s true st).userImage i = (r.saveCopy s true st).gNvmUser i := by
  have h : st.flash.copy userSettingStart
      ((st.gNvmUser.copy r.copyAt (s ++ [0])).read 0 nvmUserSize) (userSettingStart + i) =
      st.gNvmUser.copy r.copyAt (s ++ [0]) (0 + i) := Mem.copy_read hi
  rw [Nat.zero_add] at h
  exact h

theorem Setting.Synced.saveRecord (h : st.Synced) : (r.saveRecord s ok st).Synced := by
  cases ok with
  | false => exact h
  | true =>
    intro i hi
    rw [criImage_saveRecord, Mem.copy, ← h i hi]
    rfl

theorem Setting.Synced.saveCopy (h : st.Synced) : (r.saveCopy s ok st).Synced := by
  intro i hi
  rw [criImage_saveCopy hi]
  exact h i hi

/-- A record that is written is fine, and shows its string. -/
theorem holds_saveRecord (hs : s.length < r.bufLen) (h0 : ∀ b ∈ s, b ≠ 0) :
    r.Sealed (r.saveRecord s true st).gCriData ∧ r.Holds s (r.saveRecord s true st) := by
  have hread (m : Mem) : (m.copy r.offset (r.bytes s)).read r.offset r.size = r.bytes s := by
    rw [← r.length_bytes hs, Mem.read_copy_at]
  have hnow := r.sealed_bytes (hread st.gCriData) hs h0
  have hstored := r.sealed_bytes (hread st.criImage) hs h0
  rw [← criImage_saveRecord] at hstored
  exact ⟨hnow.1, ⟨fun _ => hnow.2, fun h => absurd hnow.1 h⟩,
    ⟨fun _ => hstored.2, fun h => absurd hstored.1 h⟩⟩

theorem copy_outside {d : List Byte} {a b i : Nat} (hd : d.length ≤ b) (h : i < a ∨ a + b ≤ i) :
    m.copy a d i = m i := by
  rcases h with h | h
  · exact Mem.copy_of_lt h
  · exact Mem.copy_of_le (by omega)

/-- The other string's record is written. -/
theorem Record.Holds.saveRecord (h : r'.Holds cur st) (hs : s.length < r.bufLen) (hp : r.Placed)
    (hapart : r.Apart r') : r'.Holds cur (r.saveRecord s ok st) := by
  cases ok with
  | false => exact h
  | true =>
    have hsame (m : Mem) (i : Nat) (h1 : r'.offset ≤ i) (h2 : i < r'.offset + r'.size) :
        m.copy r.offset (r.bytes s) i = m i := by
      have happ := hapart.record
      exact copy_outside (r.length_bytes hs).le (by omega)
    constructor
    · exact h.now.congr (hsame _) fun _ _ _ _ => rfl
    · rw [criImage_saveRecord, userImage_saveRecord hs hp]
      exact h.stored.congr (hsame _) fun _ _ _ _ => rfl

/-- The older place is written, and what is read does not come from there or is not touched. -/
theorem Record.Holds.saveCopy (h : r'.Holds cur st) (hsync : st.Synced) (hp : r'.Placed)
    (hu : ¬ r'.Sealed st.gCriData → ∀ i, r'.copyAt ≤ i → i < r'.copyAt + r'.copyLen →
      (r.saveCopy s ok st).gNvmUser i = st.gNvmUser i) :
    r'.Holds cur (r.saveCopy s ok st) := by
  have hrec := hp.record
  have hcopy := hp.copy
  constructor
  · exact h.now.congr (fun _ _ _ => rfl) hu
  · cases ok with
    | false => exact h.stored
    | true =>
      refine h.now.congr (fun i _ hi => ?_) fun hseal i h1 h2 => ?_
      · rw [criImage_saveCopy (by omega), hsync i (by omega)]
      · rw [userImage_saveCopy (by omega), hu hseal i h1 h2]

/-- There is no record, and the older place takes the string. -/
theorem holds_saveCopy (h : r.Holds cur st) (hsync : st.Synced) (hp : r.Placed)
    (hseal : ¬ r.Sealed st.gCriData) (hs : s.length < r.copyLen) (h0 : ∀ b ∈ s, b ≠ 0)
    (hok : ok = true ∨ s = cur) : r.Holds s (r.saveCopy s ok st) := by
  have hrec := hp.record
  have hcopy := hp.copy
  have hnow : r.Shows s (r.saveCopy s ok st).gCriData (r.saveCopy s ok st).gNvmUser :=
    ⟨fun h => absurd h hseal, fun _ => ends_copy hs h0⟩
  refine ⟨hnow, ?_⟩
  cases ok with
  | false =>
    obtain h | rfl := hok
    · cases h
    · exact h.stored
  | true =>
    refine hnow.congr (fun i _ hi => ?_) fun _ i _ hi => userImage_saveCopy (by omega)
    rw [criImage_saveCopy (by omega)]
    exact (hsync i (by omega)).symm

/-! ## One call -/

/-- What both writers do with a string that they accept. -/
def Record.write (r : Record) (s : List Byte) (criOk userOk : Bool) (st : Setting) : Setting :=
  let st := r.saveRecord s criOk st
  if s.length < r.copyLen then r.saveCopy s userOk st else st

theorem nvmWriteDeviceId_eq (device : List Byte) : nvmWriteDeviceId device criOk userOk st =
    if (cstr device).length < ccCriDeviceIdLen then
      (devId.write (cstr device) criOk userOk st, 0)
    else (st, -1) := by
  unfold nvmWriteDeviceId
  dsimp only
  split
  · rename_i hs
    rw [Record.write, if_pos (show (cstr device).length < devId.copyLen from hs)]
  · rfl

theorem nvmWriteFactorySn_eq (pSn : List Byte) : nvmWriteFactorySn pSn criOk userOk st =
    if (cstr pSn).length < ccCriFacSnLen then (facSn.write (cstr pSn) criOk userOk st, 0)
    else (st, -1) := by
  unfold nvmWriteFactorySn Record.write
  dsimp only
  split
  · split
    · rename_i hs
      rw [if_pos (show (cstr pSn).length < facSn.copyLen from hs)]
    · rename_i hs
      rw [if_neg (show ¬ (cstr pSn).length < facSn.copyLen from hs)]
  · rfl

theorem Setting.Synced.write (h : st.Synced) : (r.write s criOk userOk st).Synced := by
  unfold Record.write
  dsimp only
  split
  · exact h.saveRecord.saveCopy
  · exact h.saveRecord

theorem sealed_write (hs : s.length < r.bufLen) (h0 : ∀ b ∈ s, b ≠ 0) :
    r.Sealed (r.write s true userOk st).gCriData := by
  have hseal : r.Sealed (r.saveRecord s true st).gCriData := (holds_saveRecord hs h0).1
  unfold Record.write
  dsimp only
  split
  · exact hseal
  · exact hseal

/-- The other string. -/
theorem Record.Holds.write (h : r'.Holds cur st) (hsync : st.Synced) (hs : s.length < r.bufLen)
    (hp : r.Placed) (hp' : r'.Placed) (hapart : r.Apart r') :
    r'.Holds cur (r.write s criOk userOk st) := by
  have hrec : r'.Holds cur (r.saveRecord s criOk st) := h.saveRecord hs hp hapart
  unfold Record.write
  dsimp only
  split
  · rename_i hfit
    refine hrec.saveCopy hsync.saveRecord hp' fun _ i h1 h2 => ?_
    have happ := hapart.copy
    exact copy_outside (b := r.copyLen) (by rw [List.length_append]; exact hfit) (by omega)
  · exact hrec

/-- **A string that is kept**. -/
theorem holds_write (h : r.Holds cur st) (hsync : st.Synced) (hp : r.Placed)
    (hs : s.length < r.bufLen) (h0 : ∀ b ∈ s, b ≠ 0) (hkept : r.Kept cur s criOk userOk st) :
    r.Holds s (r.write s criOk userOk st) := by
  unfold Record.write
  dsimp only
  cases criOk with
  | true =>
    obtain ⟨hseal, hrec⟩ :
        r.Sealed (r.saveRecord s true st).gCriData ∧ r.Holds s (r.saveRecord s true st) :=
      holds_saveRecord hs h0
    split
    · exact hrec.saveCopy hsync.saveRecord hp fun hn => absurd hseal hn
    · exact hrec
  | false =>
    -- nothing became of the record
    change r.Holds s (if s.length < r.copyLen then r.saveCopy s userOk st else st)
    by_cases hseal : r.Sealed st.gCriData
    · obtain hok | rfl | ⟨hn, -, -⟩ := hkept hs
      · cases hok
      · split
        · exact h.saveCopy hsync hp fun hn => absurd hseal hn
        · exact h
      · exact absurd hseal hn
    · obtain hok | rfl | ⟨-, hfit, hok⟩ := hkept hs
      · cases hok
      · split
        · rename_i hfit
          exact holds_saveCopy h hsync hp hseal hfit h0 (.inr rfl)
        · exact h
      · rw [if_pos hfit]
        exact holds_saveCopy h hsync hp hseal hfit h0 (.inl hok)

/-- **A string that is lost**: the old one is still read, at the latest after a reload. -/
theorem lost_write (h : r.Holds cur st) (hkept : ¬ r.Kept cur s criOk userOk st) :
    s ≠ cur ∧
      (r.Shows cur (r.write s criOk userOk st).gCriData (r.write s criOk userOk st).gNvmUser ∨
        r.Shows cur (r.write s criOk userOk st).criImage
          (r.write s criOk userOk st).userImage) := by
  unfold Record.Kept at hkept
  push Not at hkept
  obtain ⟨-, hcri, hne, hlost⟩ := hkept
  refine ⟨hne, ?_⟩
  obtain rfl : criOk = false := by simpa using hcri
  change r.Shows cur (if s.length < r.copyLen then r.saveCopy s userOk st else st).gCriData
      (if s.length < r.copyLen then r.saveCopy s userOk st else st).gNvmUser ∨
    r.Shows cur (if s.length < r.copyLen then r.saveCopy s userOk st else st).criImage
      (if s.length < r.copyLen then r.saveCopy s userOk st else st).userImage
  split
  · rename_i hfit
    by_cases hseal : r.Sealed st.gCriData
    · exact .inl (h.now.congr (fun _ _ _ => rfl) fun hn => absurd hseal hn)
    · obtain rfl : userOk = false := by simpa using hlost hseal hfit
      exact .inr h.stored
  · exact .inl h.now

/-- **What becomes of a string** that a writer accepts. -/
theorem write_iff (criOk userOk : Bool) (h : r.Holds cur st) (hsync : st.Synced) (hp : r.Placed)
    (hs : s.length < r.bufLen) (h0 : ∀ b ∈ s, b ≠ 0) :
    (r.text (r.write s criOk userOk st).gCriData (r.write s criOk userOk st).gNvmUser = s ∧
      r.text (nvmReadallusersetting (r.write s criOk userOk st)).gCriData
        (nvmReadallusersetting (r.write s criOk userOk st)).gNvmUser = s) ↔
      r.Kept cur s criOk userOk st := by
  constructor
  · rintro ⟨hnow, hstored⟩
    by_contra hkept
    obtain ⟨hne, hshow | hshow⟩ := lost_write h hkept
    · exact hne (hnow.symm.trans (hshow.text hp.record hp.copy))
    · exact hne (hstored.symm.trans ((hshow.readall hp).text hp.record hp.copy))
  · intro hkept
    have hw := holds_write h hsync hp hs h0 hkept
    exact ⟨hw.now.text hp.record hp.copy, (hw.stored.readall hp).text hp.record hp.copy⟩

end

/-! ## Every run -/

section
variable {st : Setting} {t : Names}

structure Inv (x : Setting × Names) : Prop where
  synced : x.1.Synced
  device : devId.Holds x.2.device x.1
  sn : facSn.Holds x.2.sn x.1

theorem Inv.reads (h : Inv (st, t)) : Reads st t ∧ Reads (nvmReadallusersetting st) t :=
  ⟨⟨h.device.now.text devId_placed.record devId_placed.copy,
      h.sn.now.text facSn_placed.record facSn_placed.copy⟩,
    ⟨(h.device.stored.readall devId_placed).text devId_placed.record devId_placed.copy,
      (h.sn.stored.readall facSn_placed).text facSn_placed.record facSn_placed.copy⟩⟩

theorem Inv.readall (h : Inv (st, t)) : Inv (nvmReadallusersetting st, t) where
  synced _ hi := gCriData_readall hi
  device := ⟨h.device.stored.readall devId_placed, h.device.stored⟩
  sn := ⟨h.sn.stored.readall facSn_placed, h.sn.stored⟩

/-- After a reload, memory and flash show the same. -/
theorem Inv.of_shows (hd : devId.Shows t.device (nvmReadallusersetting st).gCriData
      (nvmReadallusersetting st).gNvmUser)
    (hs : facSn.Shows t.sn (nvmReadallusersetting st).gCriData
      (nvmReadallusersetting st).gNvmUser) : Inv (nvmReadallusersetting st, t) := by
  have hback {r : Record} {s : List Byte} (hp : r.Placed)
      (h : r.Shows s (nvmReadallusersetting st).gCriData (nvmReadallusersetting st).gNvmUser) :
      r.Shows s st.criImage st.userImage :=
    h.congr (fun i _ hi => (gCriData_readall (hi.trans_le hp.record)).symm)
      fun _ i _ hi => (gNvmUser_readall (hi.trans_le hp.copy)).symm
  exact ⟨fun _ hi => gCriData_readall hi, ⟨hd, hback devId_placed hd⟩, ⟨hs, hback facSn_placed hs⟩⟩

theorem step_writeDeviceId {device : List Byte} {criOk userOk : Bool}
    (hs : (cstr device).length < ccCriDeviceIdLen) :
    both step spec (st, t) (.writeDeviceId device criOk userOk) =
      ((devId.write (cstr device) criOk userOk st, { t with device := cstr device }),
        (.ret 0, .ret 0)) := by
  simp only [both, step, spec, nvmWriteDeviceId_eq, if_pos hs]

theorem told_writeDeviceId (h : Inv (st, t)) (device : List Byte) (criOk userOk : Bool) :
    (Told (st, t) (.writeDeviceId device criOk userOk) ↔
        Kept (st, t) (.writeDeviceId device criOk userOk)) ∧
      (Kept (st, t) (.writeDeviceId device criOk userOk) →
        Inv (both step spec (st, t) (.writeDeviceId device criOk userOk)).1) := by
  unfold Told both
  simp only [step, spec, nvmWriteDeviceId_eq, Kept]
  by_cases hs : (cstr device).length < ccCriDeviceIdLen
  · simp only [if_pos hs, true_and]
    have hsn : facSn.Holds t.sn (devId.write (cstr device) criOk userOk st) :=
      h.sn.write h.synced hs devId_placed facSn_placed devId_facSn
    have hiff := write_iff criOk userOk h.device h.synced devId_placed hs ne_zero_of_mem_cstr
    constructor
    · rw [← hiff]
      refine ⟨fun hr => ⟨hr.1.1, hr.2.1⟩, fun hr => ⟨⟨hr.1, ?_⟩, hr.2, ?_⟩⟩
      · exact hsn.now.text facSn_placed.record facSn_placed.copy
      · exact (hsn.stored.readall facSn_placed).text facSn_placed.record facSn_placed.copy
    · intro hkept
      exact ⟨h.synced.write,
        holds_write h.device h.synced devId_placed hs ne_zero_of_mem_cstr hkept, hsn⟩
  · simp only [if_neg hs, true_and]
    exact ⟨iff_of_true h.reads fun hlt => absurd hlt hs, fun _ => h⟩

theorem told_writeFactorySn (h : Inv (st, t)) (pSn : List Byte) (criOk userOk : Bool) :
    (Told (st, t) (.writeFactorySn pSn criOk userOk) ↔
        Kept (st, t) (.writeFactorySn pSn criOk userOk)) ∧
      (Kept (st, t) (.writeFactorySn pSn criOk userOk) →
        Inv (both step spec (st, t) (.writeFactorySn pSn criOk userOk)).1) := by
  unfold Told both
  simp only [step, spec, nvmWriteFactorySn_eq, Kept]
  by_cases hs : (cstr pSn).length < ccCriFacSnLen
  · simp only [if_pos hs, true_and]
    have hdev : devId.Holds t.device (facSn.write (cstr pSn) criOk userOk st) :=
      h.device.write h.synced hs facSn_placed devId_placed facSn_devId
    have hiff := write_iff criOk userOk h.sn h.synced facSn_placed hs ne_zero_of_mem_cstr
    constructor
    · rw [← hiff]
      refine ⟨fun hr => ⟨hr.1.2, hr.2.2⟩, fun hr => ⟨⟨?_, hr.1⟩, ?_, hr.2⟩⟩
      · exact hdev.now.text devId_placed.record devId_placed.copy
      · exact (hdev.stored.readall devId_placed).text devId_placed.record devId_placed.copy
    · intro hkept
      exact ⟨h.synced.write, hdev,
        holds_write h.sn h.synced facSn_placed hs ne_zero_of_mem_cstr hkept⟩
  · simp only [if_neg hs, true_and]
    exact ⟨iff_of_true h.reads fun hlt => absurd hlt hs, fun _ => h⟩

theorem told_step (x : Setting × Names) (op : Op) (h : Inv x) :
    (Told x op ↔ Kept x op) ∧ (Kept x op → Inv (both step spec x op).1) := by
  obtain ⟨st, t⟩ := x
  cases op with
  | writeDeviceId device criOk userOk => exact told_writeDeviceId h device criOk userOk
  | writeFactorySn pSn criOk userOk => exact told_writeFactorySn h pSn criOk userOk
  | readDeviceId =>
    exact ⟨iff_of_true ⟨congrArg Out.text h.reads.1.1, h.reads⟩ trivial, fun _ => h⟩
  | readFactorySn =>
    exact ⟨iff_of_true ⟨congrArg Out.text h.reads.1.2, h.reads⟩ trivial, fun _ => h⟩
  | readall => exact ⟨iff_of_true ⟨rfl, h.readall.reads⟩ trivial, fun _ => h.readall⟩

end

/-- **Identity records**: from a flash in which both strings end in their places, a run reads what
was written, before and after a reload, when each write is kept, and only then. -/
theorem told_iff_kept (st : Setting) (t : Names) (ops : List Op)
    (hd : devId.Shows t.device (nvmReadallusersetting st).gCriData
      (nvmReadallusersetting st).gNvmUser)
    (hs : facSn.Shows t.sn (nvmReadallusersetting st).gCriData
      (nvmReadallusersetting st).gNvmUser) :
    Each Told (both step spec) (nvmReadallusersetting st, t) ops ↔
      Each Kept (both step spec) (nvmReadallusersetting st, t) ops :=
  each_iff told_step (Inv.of_shows hd hs)

/-! ## A blank flash -/

def blank : Setting := ⟨fun _ => 0, fun _ => 0, fun _ => 0⟩

theorem shows_blank (r : Record) (hp : r.Placed) (hcopy : 0 < r.copyLen) :
    r.Shows [] (nvmReadallusersetting blank).gCriData (nvmReadallusersetting blank).gNvmUser := by
  have hseal : ¬ r.Sealed blank.criImage := by
    rintro ⟨h, -, -⟩
    exact absurd h (by decide : ¬ (crc32 0 [0, 0, 0, 0]).toNat = ofLe [0, 0, 0, 0])
  have hshows : r.Shows [] blank.criImage blank.userImage :=
    ⟨fun h => absurd h hseal, fun _ => ⟨hcopy, fun _ hb => absurd hb List.not_mem_nil, rfl⟩⟩
  exact hshows.readall hp

/-- An id that is written. -/
theorem told_written : Each Told (both step spec) (nvmReadallusersetting blank, ⟨[], []⟩)
    [.writeDeviceId [0x61] true false, .readall, .readDeviceId] :=
  (told_iff_kept blank ⟨[], []⟩ _ (shows_blank devId devId_placed (by decide))
    (shows_blank facSn facSn_placed (by decide))).mpr
    ⟨fun _ => .inl rfl, trivial, trivial, trivial⟩

/-- **Lost ids**: nothing is stored, and 0 returned; and a new id behind an old record. -/
theorem not_told_lost :
    ¬ Each Told (both step spec) (nvmReadallusersetting blank, ⟨[], []⟩)
      [.writeDeviceId [0x61] false false] ∧
    ¬ Each Told (both step spec) (nvmReadallusersetting blank, ⟨[], []⟩)
      [.writeDeviceId [0x61] true true, .writeDeviceId [0x62] false true] := by
  have hinv : Inv (nvmReadallusersetting blank, ⟨[], []⟩) :=
    Inv.of_shows (shows_blank devId devId_placed (by decide))
      (shows_blank facSn facSn_placed (by decide))
  rw [each_iff told_step hinv, each_iff told_step hinv]
  constructor
  · rintro ⟨hkept, -⟩
    obtain h | h | ⟨-, -, h⟩ := hkept (by decide)
    · cases h
    · cases h
    · cases h
  · rw [each_cons, step_writeDeviceId (by decide)]
    rintro ⟨-, hkept, -⟩
    obtain h | h | ⟨hseal, -⟩ := hkept (by decide)
    · cases h
    · cases h
    · exact hseal (sealed_write (by decide) (by decide))

end VendorAmlogic.Fbc.Ids
