import Mathlib.Data.List.GetD
import VendorAmlogic.Fbc.DeviceIds
import VendorAmlogic.Fbc.PartitionTool

/-!
# The packer of the picture quality binaries

`main` of `tool/bin_op.c`: with type `pq` it seals one binary after the other and
puts them into one file, and with type `all` it makes the image of the flash of the
file behind which `make` has put that one. So the binaries are one behind the other
from `PQ_BINARY_START` on, whatever else is there; the records of the user area are
written over them, and what does not fit the flash is cut off.
-/

namespace VendorAmlogic.Fbc.Pq

open VendorAmlogic.Lib VendorAmlogic.Fbc.Ids

def pqBinaryUnitSize : Nat := 0x4000

/-- `get_panel_def_id`, and `PROJECT_ID` of the packer. -/
def projectId : Nat := 4

/-- `PANEL_MODULE`. -/
def panelModule : List Byte := bytes "HV550QU2-305"

/-- A `.pqbin` file: the binary in a cleared buffer, with the CRC in the last four bytes. -/
def pqbin (file : List Byte) : List Byte :=
  let dataBuf := Mem.copy (fun _ => 0) 0 file
  let data := dataBuf.read 0 (pqBinaryUnitSize - 4)
  data ++ leBytes 4 (crc32 0 data).toNat

/-- `cat` of the `.pqbin` files, in the order of their names. -/
def pqFile (files : List (List Byte)) : List Byte := files.flatMap pqbin

/-- The project id, with its CRC. -/
def projectRecord : List Byte :=
  leBytes 4 projectId ++ leBytes 4 (crc32 0 (leBytes 4 projectId)).toNat

/-- The device id: its length and its text, each with its CRC. -/
def deviceRecord : List Byte :=
  leBytes 4 panelModule.length ++ leBytes 4 (crc32 0 (leBytes 4 panelModule.length)).toNat ++
    leBytes 4 (crc32 0 panelModule).toNat ++ panelModule

/-- The buffer of type `all`, of which the first `CONFIG_SPI_SIZE` bytes are written. A file that is
longer is read beyond its end. -/
def spiAll (file : List Byte) : Mem :=
  ((Mem.copy (fun _ => 0) 0 file).copy userCriDataStart projectRecord).copy
    (userCriDataStart + 128) deviceRecord

/-- `USER_CRI_DATA_SIZE`. -/
def userCriDataSize : Nat := 0x200

/-- Where the packer puts the binary of an id. -/
def packedAddr (id : Nat) : Nat := pqBinaryStart + pqBinaryUnitSize * id

section
variable {file spi : List Byte} {files : List (List Byte)}

theorem length_pqbin (file : List Byte) : (pqbin file).length = pqBinaryUnitSize := by
  rw [pqbin, List.length_append, Mem.length_read, length_leBytes]
  rfl

/-- A binary that leaves room has a zero in front of its CRC. -/
theorem pqbin_ne_blank (h : file.length < pqBinaryUnitSize - 4) :
    pqbin file ≠ List.replicate pqBinaryUnitSize 0xFF := by
  intro hblank
  have hzero : (pqbin file)[file.length]? = some 0 := by
    rw [pqbin, List.getElem?_append_left (by rwa [Mem.length_read]), Mem.getElem?_read h,
      Mem.copy_of_le (by omega)]
  rw [hblank, List.getElem?_replicate_of_lt (by omega)] at hzero
  exact absurd hzero (by decide)

theorem length_pqFile (files : List (List Byte)) :
    (pqFile files).length = pqBinaryUnitSize * files.length := by
  induction files with
  | nil => rfl
  | cons file files ih =>
    rw [pqFile, List.flatMap_cons, List.length_append, length_pqbin, List.length_cons, Nat.mul_succ,
      Nat.add_comm]
    exact congrArg (· + _) ih

/-- A byte of one of the binaries. -/
theorem getD_pqFile {id i : Nat} (hid : id < files.length) (hi : i < pqBinaryUnitSize) :
    (pqFile files).getD (pqBinaryUnitSize * id + i) 0 = (pqbin files[id]).getD i 0 := by
  induction files generalizing id with
  | nil => exact absurd hid (Nat.not_lt_zero _)
  | cons file files ih =>
    rw [pqFile, List.flatMap_cons]
    cases id with
    | zero =>
      rw [Nat.mul_zero, Nat.zero_add, List.getD_append _ _ _ _ (by rwa [length_pqbin])]
      rfl
    | succ id =>
      rw [List.getD_append_right _ _ _ _ (by rw [length_pqbin]; nlinarith), length_pqbin,
        show pqBinaryUnitSize * (id + 1) + i - pqBinaryUnitSize = pqBinaryUnitSize * id + i by
          rw [Nat.mul_succ]; omega]
      exact ih (Nat.lt_of_succ_lt_succ hid)

theorem length_projectRecord : projectRecord.length = 8 := by
  rw [projectRecord, List.length_append, length_leBytes, length_leBytes]

theorem length_deviceRecord : deviceRecord.length = 24 := by
  simp only [deviceRecord, List.length_append, length_leBytes]
  rfl

/-- The records are in their part of the user area. -/
theorem spiAll_of_outside {j : Nat} (hj : j < userCriDataStart ∨ userCriDataStart + userCriDataSize ≤ j) :
    spiAll file j = Mem.copy (fun _ => 0) 0 file j := by
  unfold userCriDataSize at hj
  rw [spiAll, Mem.copy, if_neg (by rw [length_deviceRecord]; omega), Mem.copy,
    if_neg (by rw [length_projectRecord]; omega)]

/-- **Where the binaries are in the image**: at their places, but for the records. -/
theorem spiAll_packed (hspi : spi.length = pqBinaryStart) {id i : Nat} (hid : id < files.length)
    (hi : i < pqBinaryUnitSize) (hcri : packedAddr id + i < userCriDataStart ∨
      userCriDataStart + userCriDataSize ≤ packedAddr id + i) :
    spiAll (spi ++ pqFile files) (packedAddr id + i) = (pqbin files[id]).getD i 0 := by
  have hin : pqBinaryUnitSize * id + i < (pqFile files).length := by
    rw [length_pqFile]
    calc pqBinaryUnitSize * id + i < pqBinaryUnitSize * (id + 1) := by rw [Nat.mul_succ]; omega
      _ ≤ pqBinaryUnitSize * files.length := Nat.mul_le_mul_left _ hid
  have hat : packedAddr id + i - spi.length = pqBinaryUnitSize * id + i := by
    rw [hspi, packedAddr]
    omega
  have hlow : spi.length ≤ packedAddr id + i := by
    rw [hspi, packedAddr]
    omega
  rw [spiAll_of_outside hcri, Mem.copy, if_pos ⟨Nat.zero_le _, by rw [List.length_append]; omega⟩,
    Nat.sub_zero, List.getD_append_right _ _ _ _ hlow, hat, getD_pqFile hid hi]

end

end VendorAmlogic.Fbc.Pq
