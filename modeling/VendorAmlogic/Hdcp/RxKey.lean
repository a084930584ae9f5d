import Mathlib.Tactic
import VendorAmlogic.Lib.Bytes

/-!
# HDCP 2.2 keys and their firmware

`setHdcpRX22key` and `setHDCP22Key` of `systemcontrol/HDCP/HDCPRxKey.cpp`. The
contents of the files in `/param` are terms that say what they were made from;
whether a device, a tool or a file works is an input of each round. Files are
truncated when they are opened, and most results of `write` and `read` are not
looked at: what is left then is a `part`. The stored CRC is compared as bytes:
`char` is unsigned on the target.
-/

namespace VendorAmlogic.Hdcp

open VendorAmlogic.Lib

/-! ## Files -/

/-- A packed key; its first four bytes are its CRC. -/
abbrev Key := List Byte

def crcLen : Nat := 4

def crc (k : Key) : List Byte := k.take crcLen

/-- The contents of a temporary file; `part` is what calls that failed, or did less than they were
asked for, have left in the place of the data. -/
inductive Data where
  | config (k : Key)
  | keyFile (k : Key)
  | keyImg (key : Data)
  | keyLe (img config : Data)
  | bytes2080 (config le : Data)
  | part (d : Data) (n : Nat)
  | other (n : Nat)
  deriving DecidableEq

/-- `firmware.le`: the 2080 bytes that were inserted, and the size of the file. -/
structure Firmware where
  insert : Data
  size : Nat
  deriving DecidableEq

/-- The files in `/param`. -/
structure Files where
  key : Option Data
  config : Option Data
  keyImg : Option Data
  keyLe : Option Data
  bytes2080 : Option Data
  firmware : Option Firmware
  crc : Option (List Byte)

/-- The 2080 bytes that belong to a key. -/
def genuine (k : Key) : Data :=
  .bytes2080 (.config k) (.keyLe (.keyImg (.keyFile k)) (.config k))

/-! ## What happens in a round -/

/-- What `hdcpKeyUnpack` does to one of its files. An item that the key does not have leaves it
`untouched`, and so does an `open` that fails. The `write`s are not checked, nor is what `open` and
`read` give of the file that is appended to `firmware.aic`: when one of them fails or is short, the
file is a `part`. -/
inductive Put where
  | untouched
  | whole
  | part (n : Nat)
  deriving DecidableEq

/-- `hdcpKeyUnpack`: its result, and what it does to its two files. -/
structure Unpack where
  ret : Bool
  config : Put
  key : Put

/-- A tool of `genKeyImg`, `esmSwap` or `aicTool`, and what it leaves of its output when it
fails. -/
inductive Tool where
  | works
  | fails (left : Option Data)

/-- `saveFile` of the CRC; `write` may take fewer bytes. -/
inductive Save where
  | openFails
  | writes (n : Nat)

/-- `combineFirmware`. Where the original firmware or the 2080 bytes cannot be opened, -1 is
used as a size; `openFails` is also that there is no memory. `reads` is that both files are read
whole. -/
inductive Combine where
  | sourceFails
  | openFails
  | writes (reads : Bool) (n : Nat)

structure Round where
  crcOpens : Bool
  unpack : Unpack
  genKeyImg : Tool
  esmSwap : Tool
  aicTool : Tool
  save : Save
  combine : Combine

/-! ## The source -/

/-- `readSys` of the CRC into `lastCrcData`. -/
def readCrc (s : Files) (opens : Bool) (lastCrcData : List Byte) : List Byte :=
  match opens, s.crc with
  | true, some c => c.take crcLen ++ lastCrcData.drop (c.take crcLen).length
  | _, _ => lastCrcData

/-- A file after `hdcpKeyUnpack`. -/
def Put.file (r : Put) (d : Data) (old : Option Data) : Option Data :=
  match r with
  | .untouched => old
  | .whole => some d
  | .part n => some (.part d n)

def hdcpKeyUnpack (k : Key) (u : Unpack) (s : Files) : Files :=
  { s with
    config := u.config.file (.config k) s.config
    key := u.key.file (.keyFile k) s.key }

/-- A file that is not there. -/
def absent : Data := .other 0

def genKeyImg (r : Tool) (s : Files) : Files × Bool :=
  match r with
  | .works => ({ s with keyImg := some (.keyImg (s.key.getD absent)) }, true)
  | .fails left => ({ s with keyImg := left }, false)

def esmSwap (r : Tool) (s : Files) : Files × Bool :=
  match r with
  | .works =>
    ({ s with keyLe := some (.keyLe (s.keyImg.getD absent) (s.config.getD absent)) }, true)
  | .fails left => ({ s with keyLe := left }, false)

def aicTool (r : Tool) (s : Files) : Files × Bool :=
  match r with
  | .works =>
    ({ s with bytes2080 := some (.bytes2080 (s.config.getD absent) (s.keyLe.getD absent)) }, true)
  | .fails left => ({ s with bytes2080 := left }, false)

/-- `saveFile` of the CRC. -/
def saveCrc (k : Key) (r : Save) (s : Files) : Files :=
  match r with
  | .openFails => s
  | .writes n => { s with crc := some ((crc k).take n) }

/-- `combineFirmware`, whose result is not used. -/
def combineFirmware (r : Combine) (s : Files) : Option Files :=
  match r with
  | .sourceFails => none
  | .openFails => some s
  | .writes reads n =>
    let insert := s.bytes2080.getD absent
    some { s with firmware := some ⟨if reads then insert else .part insert 0, n⟩ }

def removeTemporary (s : Files) : Files :=
  { s with key := none, config := none, keyImg := none, keyLe := none, bytes2080 := none }

/-- How the common part of both functions ends. -/
inductive Ended where
  | upToDate
  | unpackFails
  | toolFails
  | generated
  deriving DecidableEq

/-- The part of `setHdcpRX22key` and `setHDCP22Key` from the comparison of the CRC on. -/
def generate (k : Key) (lastCrcData : List Byte) (r : Round) (s : Files) : Option (Files × Ended) :=
  if s.firmware = none ∨ crc k ≠ lastCrcData then
    let s := hdcpKeyUnpack k r.unpack s
    if ! r.unpack.ret then some (s, .unpackFails)
    else
      let (s, img) := genKeyImg r.genKeyImg s
      if ! img then some (s, .toolFails)
      else
        let (s, le) := esmSwap r.esmSwap s
        if ! le then some (s, .toolFails)
        else
          let (s, aic) := aicTool r.aicTool s
          if ! aic then some (s, .toolFails)
          else do
            let s ← combineFirmware r.combine (saveCrc k r.save s)
            some (removeTemporary s, .generated)
  else some (s, .upToDate)

/-- The files, and the key that was last written to or read from the secure storage. -/
structure State where
  files : Files
  installed : Option Key

/-- `setHdcpRX22key`, with the bytes that the storage took and whether it then has a key. -/
def setHdcpRX22key (value : Key) (keyLen : Int) (existKey : Bool) (r : Round) (s : State) :
    Option (State × Int) :=
  if keyLen ≠ value.length then some (s, -1)
  else if ! existKey then some (s, -1)
  else if value.length < crcLen then none
  else do
    let lastCrcData := readCrc s.files r.crcOpens (List.replicate crcLen 0)
    let (files, ended) ← generate value lastCrcData r s.files
    some (⟨files, some value⟩, if ended = .generated then 0 else -1)

/-- A round of `setHDCP22Key`: whether the storage has a key, and what is read of it. -/
structure StorageRound where
  existKey : Bool
  key : Option Key
  round : Round

/-- The rounds of `setHDCP22Key`. -/
def refreshLoop : List StorageRound → List Byte → Bool → State → Option (State × Bool)
  | [], _, ret, s => some (s, ret)
  | q :: qs, lastCrcData, ret, s =>
    if ! q.existKey then some (s, ret)
    else
      match q.key with
      | none => some (s, ret)
      | some k =>
        if k.length < crcLen then some (s, ret)
        else do
          let lastCrcData := readCrc s.files q.round.crcOpens lastCrcData
          let (files, ended) ← generate k lastCrcData q.round s.files
          let s : State := ⟨files, some k⟩
          if ended = .unpackFails then some (s, ret)
          else
            let ret := ret || ended = .generated
            match files.firmware with
            | none => some (s, ret)
            | some fw =>
              if fw.size < 100 then
                refreshLoop qs lastCrcData ret { s with files := { files with firmware := none } }
              else some (s, ret)

/-- `setHDCP22Key`: up to three rounds. -/
def setHDCP22Key (rounds : Fin 3 → StorageRound) (s : State) : Option (State × Bool) :=
  refreshLoop (List.ofFn rounds) (List.replicate crcLen 0) false s

/-! ## Runs -/

inductive Call where
  | set (value : Key) (keyLen : Int) (existKey : Bool) (r : Round)
  | refresh (rounds : Fin 3 → StorageRound)

def State.step (s : State) : Call → Option State
  | .set value keyLen existKey r => (setHdcpRX22key value keyLen existKey r s).map Prod.fst
  | .refresh rounds => (setHDCP22Key rounds s).map Prod.fst

/-- If there is firmware, and the CRC that was saved is that of the key, the firmware is that
of the key. -/
def Fresh (s : State) : Prop :=
  ∀ k fw, s.installed = some k → s.files.firmware = some fw → s.files.crc = some (crc k) →
    fw.insert = genuine k

/-- A round, with the files and the CRC that it has. -/
structure Visit where
  files : Files
  key : Key
  lastCrcData : List Byte
  round : Round

/-- The rounds that `setHDCP22Key` makes. -/
def refreshVisits : List StorageRound → List Byte → Files → List Visit
  | [], _, _ => []
  | q :: qs, lastCrcData, s =>
    if ! q.existKey then []
    else
      match q.key with
      | none => []
      | some k =>
        if k.length < crcLen then []
        else
          let lastCrcData := readCrc s q.round.crcOpens lastCrcData
          ⟨s, k, lastCrcData, q.round⟩ ::
            match generate k lastCrcData q.round s with
            | none => []
            | some (s, ended) =>
              if ended = .unpackFails then []
              else
                match s.firmware with
                | none => []
                | some fw =>
                  if fw.size < 100 then refreshVisits qs lastCrcData { s with firmware := none }
                  else []

/-- The rounds of a call. -/
def visits (s : State) : Call → List Visit
  | .set value keyLen existKey r =>
    if keyLen ≠ value.length ∨ existKey = false ∨ value.length < crcLen then []
    else [⟨s.files, value, readCrc s.files r.crcOpens (List.replicate crcLen 0), r⟩]
  | .refresh rounds => refreshVisits (List.ofFn rounds) (List.replicate crcLen 0) s.files

/-- The round comes to saving the CRC. -/
structure Visit.Saves (v : Visit) : Prop where
  needed : v.files.firmware = none ∨ crc v.key ≠ v.lastCrcData
  unpack : v.round.unpack.ret = true
  genKeyImg : v.round.genKeyImg = .works
  esmSwap : v.round.esmSwap = .works
  aicTool : v.round.aicTool = .works

/-- Firmware that is written is made from both items of the key, written and read whole; and the
CRC and the firmware are saved both or none. What is not saved may be there from before for the
same key, or not at all. -/
structure Visit.Complete (v : Visit) : Prop where
  items : ∀ reads n, v.round.combine = .writes reads n →
    reads = true ∧ v.round.unpack.config = .whole ∧ v.round.unpack.key = .whole
  firmware : ∀ n, v.round.save = .writes n → crcLen ≤ n → v.round.combine = .openFails →
    ∀ fw, v.files.firmware = some fw → fw.insert = genuine v.key
  crc : ∀ reads n, v.round.save = .openFails → v.round.combine = .writes reads n →
    ∀ c, v.files.crc = some c → c.length = crcLen → c = crc v.key

/-- The keys of a call are in `K`, and its rounds save all or nothing. -/
def Careful (K : Set Key) (s : State) (c : Call) : Prop :=
  ∀ v ∈ visits s c, v.key ∈ K ∧ (v.Saves → v.Complete)

/-- The states of the runs from `s` whose calls are `Careful`. -/
inductive Reach (K : Set Key) (s : State) : State → Prop
  | init : Reach K s s
  | step {t t' : State} {c : Call} (h : Reach K s t) (hc : Careful K t c) (hs : t.step c = some t') :
      Reach K s t'

/-! ## One round -/

section
variable {K : Set Key} {k : Key} {last : List Byte} {r : Round} {s s' : Files} {e : Ended}

theorem saveCrc_firmware (q : Save) : (saveCrc k q s).firmware = s.firmware := by
  cases q <;> rfl

theorem saveCrc_bytes2080 (q : Save) : (saveCrc k q s).bytes2080 = s.bytes2080 := by
  cases q <;> rfl

theorem saveCrc_crc (q : Save) (hs : s'.crc = s.crc) : (saveCrc k q s').crc = (saveCrc k q s).crc := by
  cases q with
  | openFails => exact hs
  | writes n => rfl

/-- The files after the three tools. -/
def afterTools (k : Key) (u : Unpack) (s : Files) : Files :=
  (aicTool .works (esmSwap .works (genKeyImg .works (hdcpKeyUnpack k u s)).1).1).1

theorem afterTools_bytes2080 {u : Unpack} (hc : u.config = .whole) (hk : u.key = .whole) :
    (afterTools k u s).bytes2080 = some (genuine k) := by
  simp [afterTools, aicTool, esmSwap, genKeyImg, hdcpKeyUnpack, Put.file, hc, hk, genuine]

/-- What a round does to the CRC and the firmware. -/
theorem generate_cases (h : generate k last r s = some (s', e)) :
    (s'.firmware = s.firmware ∧ s'.crc = s.crc) ∨
    (Visit.Saves ⟨s, k, last, r⟩ ∧ s'.crc = (saveCrc k r.save s).crc ∧
      ((r.combine = .openFails ∧ s'.firmware = s.firmware) ∨
        ∃ reads n fw, r.combine = .writes reads n ∧ s'.firmware = some fw ∧
          (reads = true → r.unpack.config = .whole → r.unpack.key = .whole →
            fw.insert = genuine k))) := by
  unfold generate at h
  by_cases hneed : s.firmware = none ∨ crc k ≠ last
  · rw [if_pos hneed] at h
    dsimp only at h
    cases hret : r.unpack.ret with
    | false =>
      rw [hret] at h
      cases h
      exact .inl ⟨rfl, rfl⟩
    | true =>
      rw [hret] at h
      cases himg : r.genKeyImg with
      | fails left =>
        rw [himg] at h
        cases h
        exact .inl ⟨rfl, rfl⟩
      | works =>
        rw [himg] at h
        cases hesm : r.esmSwap with
        | fails left =>
          rw [hesm] at h
          cases h
          exact .inl ⟨rfl, rfl⟩
        | works =>
          rw [hesm] at h
          cases haic : r.aicTool with
          | fails left =>
            rw [haic] at h
            cases h
            exact .inl ⟨rfl, rfl⟩
          | works =>
            rw [haic] at h
            refine .inr ⟨⟨hneed, hret, himg, hesm, haic⟩, ?_⟩
            obtain ⟨t, ht, h⟩ := Option.bind_eq_some_iff.mp h
            cases h
            change combineFirmware r.combine (saveCrc k r.save (afterTools k r.unpack s)) = some t at ht
            cases hcomb : r.combine with
            | sourceFails =>
              rw [hcomb] at ht
              cases ht
            | openFails =>
              rw [hcomb] at ht
              cases ht
              exact ⟨saveCrc_crc r.save rfl, .inl ⟨rfl, saveCrc_firmware r.save⟩⟩
            | writes reads n =>
              rw [hcomb] at ht
              cases ht
              refine ⟨saveCrc_crc r.save rfl, .inr ⟨reads, n, _, rfl, rfl, fun hr hc hk => ?_⟩⟩
              dsimp only
              rw [if_pos hr, saveCrc_bytes2080, afterTools_bytes2080 hc hk, Option.getD_some]
  · rw [if_neg hneed] at h
    cases h
    exact .inl ⟨rfl, rfl⟩

/-- A complete CRC is that of the key that the firmware was made from. -/
def Recorded (K : Set Key) (s : Files) : Prop :=
  ∀ fw c, s.firmware = some fw → s.crc = some c → c.length = crcLen →
    ∃ k ∈ K, crc k = c ∧ fw.insert = genuine k

/-- **One round** keeps the record right. -/
theorem Recorded.generate (hs : Recorded K s) (hk : k ∈ K)
    (hv : Visit.Saves ⟨s, k, last, r⟩ → Visit.Complete ⟨s, k, last, r⟩)
    (h : generate k last r s = some (s', e)) : Recorded K s' := by
  rcases generate_cases h with ⟨hfw, hcrc⟩ | ⟨hsaves, hcrc, hends⟩
  · intro fw c h1 h2 h3
    exact hs fw c (hfw ▸ h1) (hcrc ▸ h2) h3
  · have hcomp := hv hsaves
    intro fw c h1 h2 h3
    rw [hcrc] at h2
    rcases hends with ⟨hcomb, hfw⟩ | ⟨reads, n, fw', hcomb, hfw, hins⟩
    · -- the old firmware stays
      rw [hfw] at h1
      cases hsave : r.save with
      | openFails =>
        rw [hsave] at h2
        exact hs fw c h1 h2 h3
      | writes n =>
        rw [hsave] at h2
        cases h2
        rw [List.length_take, crc, List.length_take] at h3
        have hn : crcLen ≤ n := by omega
        have hfull : (crc k).take n = crc k :=
          List.take_of_length_le (Nat.le_trans (List.length_take_le _ _) hn)
        exact ⟨k, hk, hfull.symm, hcomp.firmware n hsave hn hcomb fw h1⟩
    · rw [hfw] at h1
      cases h1
      obtain ⟨hreads, hconfig, hkey⟩ := hcomp.items reads n hcomb
      refine ⟨k, hk, ?_, hins hreads hconfig hkey⟩
      cases hsave : r.save with
      | openFails =>
        rw [hsave] at h2
        exact (hcomp.crc reads n hsave hcomb c h2 h3).symm
      | writes m =>
        rw [hsave] at h2
        cases h2
        rw [List.length_take, crc, List.length_take] at h3
        exact (List.take_of_length_le (Nat.le_trans (List.length_take_le _ _) (by omega))).symm

end

/-! ## Calls -/

section
variable {K : Set Key} {s s' : State}

structure Inv (K : Set Key) (s : State) : Prop where
  recorded : Recorded K s.files
  installed : ∀ k, s.installed = some k → k ∈ K ∧ crcLen ≤ k.length

theorem Recorded.remove {s : Files} : Recorded K { s with firmware := none } := nofun

theorem Inv.set {value : Key} {keyLen : Int} {existKey : Bool} {r : Round} {ret : Int} (hs : Inv K s)
    (hc : Careful K s (.set value keyLen existKey r))
    (h : setHdcpRX22key value keyLen existKey r s = some (s', ret)) : Inv K s' := by
  unfold setHdcpRX22key at h
  by_cases hlen : keyLen ≠ value.length
  · rw [if_pos hlen] at h
    cases h
    exact hs
  · rw [if_neg hlen] at h
    cases existKey with
    | false =>
      cases h
      exact hs
    | true =>
      rw [if_neg (by decide)] at h
      by_cases hshort : value.length < crcLen
      · rw [if_pos hshort] at h
        cases h
      · rw [if_neg hshort] at h
        obtain ⟨⟨files, ended⟩, hg, h⟩ := Option.bind_eq_some_iff.mp h
        cases h
        have hv := hc ⟨s.files, value, _, r⟩ (by
          dsimp only [visits]
          rw [if_neg (by simpa [hshort] using hlen)]
          exact List.mem_singleton.mpr rfl)
        refine ⟨hs.recorded.generate hv.1 hv.2 hg, fun k hk => ?_⟩
        cases hk
        exact ⟨hv.1, Nat.le_of_not_lt hshort⟩

/-- The rounds of `setHDCP22Key`, by induction over those that are left. -/
theorem Inv.refreshLoop {qs : List StorageRound} {last : List Byte} {ret ret' : Bool} (hs : Inv K s)
    (hc : ∀ v ∈ refreshVisits qs last s.files, v.key ∈ K ∧ (v.Saves → v.Complete))
    (h : refreshLoop qs last ret s = some (s', ret')) : Inv K s' := by
  induction qs generalizing last ret s with
  | nil =>
    cases h
    exact hs
  | cons q qs ih =>
    unfold Hdcp.refreshLoop at h
    unfold refreshVisits at hc
    cases hex : q.existKey with
    | false =>
      rw [hex] at h
      cases h
      exact hs
    | true =>
      rw [hex, if_neg (by decide)] at h hc
      cases hkey : q.key with
      | none =>
        rw [hkey] at h
        cases h
        exact hs
      | some k =>
        rw [hkey] at h hc
        dsimp only at h hc
        by_cases hshort : k.length < crcLen
        · rw [if_pos hshort] at h
          cases h
          exact hs
        · rw [if_neg hshort] at h hc
          obtain ⟨⟨files, ended⟩, hg, h⟩ := Option.bind_eq_some_iff.mp h
          obtain ⟨hv, hrest⟩ := List.forall_mem_cons.1 hc
          rw [hg] at hrest
          have hi : Inv K ⟨files, some k⟩ := by
            refine ⟨hs.recorded.generate hv.1 hv.2 hg, fun k' hk' => ?_⟩
            cases hk'
            exact ⟨hv.1, Nat.le_of_not_lt hshort⟩
          dsimp only at h hrest
          by_cases hend : ended = .unpackFails
          · rw [if_pos hend] at h
            cases h
            exact hi
          · rw [if_neg hend] at h hrest
            cases hfw : files.firmware with
            | none =>
              rw [hfw] at h
              cases h
              exact hi
            | some fw =>
              rw [hfw] at h hrest
              dsimp only at h hrest
              by_cases hsize : fw.size < 100
              · rw [if_pos hsize] at h hrest
                exact ih (s := ⟨{ files with firmware := none }, some k⟩) ⟨Recorded.remove, hi.installed⟩ hrest h
              · rw [if_neg hsize] at h
                cases h
                exact hi

theorem Inv.step {c : Call} (hs : Inv K s) (hc : Careful K s c) (h : s.step c = some s') :
    Inv K s' := by
  cases c with
  | set value keyLen existKey r =>
    obtain ⟨⟨t, ret⟩, ht, rfl⟩ := Option.map_eq_some_iff.mp h
    exact hs.set hc ht
  | refresh rounds =>
    obtain ⟨⟨t, ret⟩, ht, rfl⟩ := Option.map_eq_some_iff.mp h
    exact hs.refreshLoop hc ht

theorem Inv.fresh (hinj : Set.InjOn crc K) (hs : Inv K s) : Fresh s := by
  intro k fw hk hfw hcrc
  obtain ⟨hmem, hlen⟩ := hs.installed k hk
  obtain ⟨k', hk', hcrc', hins⟩ := hs.recorded fw (crc k) hfw hcrc (by
    rw [crc, List.length_take]
    omega)
  rwa [hinj hk' hmem hcrc'] at hins

end

/-- **Firmware is fresh**, in all runs that save all or nothing, of keys with distinct CRCs. -/
theorem fresh_of_careful {K : Set Key} {s s' : State} (hinj : Set.InjOn crc K)
    (hfw : s.files.firmware = none) (hkey : s.installed = none) (h : Reach K s s') : Fresh s' := by
  have hinv : Inv K s' := by
    induction h with
    | init =>
      refine ⟨fun fw c h1 => ?_, fun k hk => ?_⟩
      · rw [hfw] at h1
        cases h1
      · rw [hkey] at hk
        cases hk
    | step _ hc hs ih => exact ih.step hc hs
  exact hinv.fresh hinj

/-- No files, and no key yet. -/
def State.initial : State := ⟨⟨none, none, none, none, none, none, none⟩, none⟩

/-- A round in which all works up to the firmware. -/
def workingRound (c : Combine) : Round :=
  ⟨true, ⟨true, .whole, .whole⟩, .works, .works, .works, .writes 4, c⟩

/-- A key is written, and the storage takes it. -/
def setKey (k : Key) (c : Combine) : Call := .set k k.length true (workingRound c)

def keyOne : Key := [1, 0, 0, 0, 0xAA]
def keyTwo : Key := [2, 0, 0, 0, 0xBB]

/-- The files of the first key. -/
def stateOne : State :=
  ⟨⟨none, none, none, none, none, some ⟨genuine keyOne, 200⟩, some [1, 0, 0, 0]⟩, some keyOne⟩

theorem step_keyOne : State.initial.step (setKey keyOne (.writes true 200)) = some stateOne := rfl

/-- A key that is installed without a failure. -/
theorem fresh_keyOne : Fresh stateOne := by
  refine fresh_of_careful (K := {keyOne}) (s := State.initial) (Set.injOn_singleton _ _) rfl rfl
    (.step .init ?_ step_keyOne)
  intro v hv
  cases List.mem_singleton.mp hv
  refine ⟨rfl, fun _ => ⟨fun reads n h => ?_, nofun, nofun⟩⟩
  cases h
  exact ⟨rfl, rfl, rfl⟩

/-- **Firmware of an older key**: the CRC of the second key is saved, and then the firmware cannot
be opened for writing. -/
theorem stale_keyTwo : ∃ s, State.initial.step (setKey keyOne (.writes true 200)) = some stateOne ∧
    stateOne.step (setKey keyTwo .openFails) = some s ∧ ¬ Fresh s := by
  refine ⟨_, step_keyOne, rfl, fun h => ?_⟩
  exact absurd (h keyTwo ⟨genuine keyOne, 200⟩ rfl rfl rfl) (by decide)

end VendorAmlogic.Hdcp
