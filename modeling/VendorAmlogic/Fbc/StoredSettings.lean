import VendorAmlogic.Lib.Bytes
import VendorAmlogic.Lib.Run

/-!
# Stored settings

The accessors of `project/user_setting.c` for the source, the picture and white
balance modes with their tables, and the gamma and database indices. An `int`
is its 32 bits; `<` on it is signed, on a `vpu_picmod_e` or an `unsigned int`
unsigned. Each call tells which elements of the arrays it uses and which it
saves to the flash; what is behind an array is not told from any other memory.
-/

namespace VendorAmlogic.Fbc.Settings

open VendorAmlogic.Lib

/-! ## Data -/

def ePQSrcMax : Nat := 4
def ePQSrcHdmi : Byte := 0
def eWBMax : Nat := 4
def eWBStd : BitVec 32 := 1
def picmodMax : Nat := 5
def picmodStd : BitVec 32 := 0
def kMaxDbSize : Nat := 20
def kMaxGammaSize : Nat := 9

/-- `pic_mode` or `wb_mode`. -/
inductive Mode where
  | pic
  | wb
  deriving DecidableEq

/-- `gammaIdx` or `pqDBIdx`. -/
inductive Index where
  | gamma
  | pqDB
  deriving DecidableEq

def Mode.max : Mode → Nat
  | pic => picmodMax
  | wb => eWBMax

def Index.size : Index → Nat
  | gamma => kMaxGammaSize
  | pqDB => kMaxDbSize

/-- `vpu_picmod_table_t`. -/
structure PicmodTable where
  picmod : BitVec 32
  bright : BitVec 32
  contrast : BitVec 32
  saturation : BitVec 32
  hue : BitVec 32

/-- `vpu_wb_t`. -/
structure Wb where
  gainR : BitVec 16
  gainG : BitVec 16
  gainB : BitVec 16
  preOffsetR : BitVec 16
  preOffsetG : BitVec 16
  preOffsetB : BitVec 16
  postOffsetR : BitVec 16
  postOffsetG : BitVec 16
  postOffsetB : BitVec 16

/-- What the accessors use of `g_nvm_user` and `g_factory_user`. -/
structure Nvm where
  curSource : Byte
  mode : Mode → Int → BitVec 32
  picmode : Int → Int → PicmodTable
  index : Index → BitVec 32
  wb : Int → Wb
  factoryDataFlag : BitVec 32

/-- A member, or an element of an array. -/
inductive Cell where
  | mode (k : Mode) (i : Int)
  | picmode (i j : Int)
  | index (k : Index)
  | wb (i : Int)
  | factoryDataFlag

def Cell.InBounds : Cell → Prop
  | .mode _ i => 0 ≤ i ∧ i < ePQSrcMax
  | .picmode i j => (0 ≤ i ∧ i < ePQSrcMax) ∧ 0 ≤ j ∧ j < picmodMax
  | .wb i => 0 ≤ i ∧ i < eWBMax
  | .index _ | .factoryDataFlag => True

structure Result (α : Type) where
  nvm : Nvm
  ret : Int
  out : α
  /-- What it uses of the arrays. -/
  cells : List Cell
  /-- What it saves. -/
  saved : List Cell

namespace Nvm

/-- `g_nvm_user.system.misc.cur_source`, as an index. -/
def source (st : Nvm) : Int := st.curSource.toNat

def setMode (st : Nvm) (k : Mode) (i : Int) (x : BitVec 32) : Nvm :=
  { st with mode := Function.update st.mode k (Function.update (st.mode k) i x) }

def setPicmode (st : Nvm) (i j : Int) (tab : PicmodTable) : Nvm :=
  { st with picmode := Function.update st.picmode i (Function.update (st.picmode i) j tab) }

def setIndex (st : Nvm) (k : Index) (x : BitVec 32) : Nvm :=
  { st with index := Function.update st.index k x }

def setWb (st : Nvm) (i : Int) (tab : Wb) : Nvm := { st with wb := Function.update st.wb i tab }

end Nvm

/-! ## Accessors -/

def nvmReadCursource (st : Nvm) : Result Unit :=
  if st.source < ePQSrcMax then ⟨st, st.source, (), [], []⟩
  else ⟨{ st with curSource := ePQSrcHdmi }, ePQSrcHdmi.toNat, (), [], []⟩

/-- `nvm_read_pic_mode` and `nvm_read_wb_mode`, with their standard. -/
def readMode (k : Mode) (std : BitVec 32) (st : Nvm) : Result Unit :=
  let cell := Cell.mode k st.source
  if st.source < ePQSrcMax then ⟨st, (st.mode k st.source).toInt, (), [cell], []⟩
  else
    let st' := st.setMode k st.source std
    ⟨st', (st'.mode k st.source).toInt, (), [cell], []⟩

def nvmReadPicMode : Nvm → Result Unit := readMode .pic picmodStd

def nvmReadWbMode : Nvm → Result Unit := readMode .wb eWBStd

/-- `nvm_write_pic_mode` and `nvm_write_wb_mode`, with their limit. -/
def writeMode (k : Mode) (max : Nat) (x : BitVec 32) (save : Bool) (st : Nvm) : Result Unit :=
  let cell := Cell.mode k st.source
  if st.source < ePQSrcMax ∧ x.toInt < max then
    ⟨st.setMode k st.source x, 0, (), [cell], if save then [cell] else []⟩
  else ⟨st, -1, (), [], []⟩

def nvmWritePicMode : BitVec 32 → Bool → Nvm → Result Unit := writeMode .pic picmodMax

/-- It is compared with the picture modes, too. -/
def nvmWriteWbMode : BitVec 32 → Bool → Nvm → Result Unit := writeMode .wb picmodMax

def nvmReadPicParam (curPicMode : BitVec 32) (st : Nvm) : Result PicmodTable :=
  if st.source < ePQSrcMax ∧ curPicMode.toNat < picmodMax then
    ⟨st, 0, st.picmode st.source curPicMode.toNat, [.picmode st.source curPicMode.toNat], []⟩
  else
    ⟨st, -1, st.picmode ePQSrcHdmi.toNat picmodStd.toNat,
      [.picmode ePQSrcHdmi.toNat picmodStd.toNat], []⟩

def nvmWritePicParam (curPicMode : BitVec 32) (tab : PicmodTable) (save : Bool) (st : Nvm) :
    Result Unit :=
  let cell := Cell.picmode st.source curPicMode.toNat
  if st.source < ePQSrcMax ∧ curPicMode.toNat < picmodMax then
    ⟨st.setPicmode st.source curPicMode.toNat tab, 0, (), [cell], if save then [cell] else []⟩
  else ⟨st, -1, (), [], []⟩

def nvmReadWbParam (curWbMode : BitVec 32) (st : Nvm) : Result Wb :=
  if curWbMode.toInt < eWBMax then
    ⟨st, 0, st.wb curWbMode.toInt, [.wb curWbMode.toInt], []⟩
  else ⟨st, -1, st.wb eWBStd.toInt, [.wb eWBStd.toInt], []⟩

/-- A save also marks the factory data as changed. -/
def nvmWriteWbParam (curWbMode : BitVec 32) (tab : Wb) (save : Bool) (st : Nvm) : Result Unit :=
  let cell := Cell.wb curWbMode.toInt
  if curWbMode.toInt < eWBMax then
    let st := st.setWb curWbMode.toInt tab
    if save then
      if st.factoryDataFlag ≠ 2 then
        ⟨{ st with factoryDataFlag := 2 }, 0, (), [cell], [cell, .factoryDataFlag]⟩
      else ⟨st, 0, (), [cell], [cell]⟩
    else ⟨st, 0, (), [cell], []⟩
  else ⟨st, -1, (), [], []⟩

/-- `nvm_read_gamma_idx` and `nvm_read_pqDB_idx`. -/
def readIndex (k : Index) (st : Nvm) : Result Unit :=
  if (st.index k).toNat < k.size then ⟨st, (st.index k).toInt, (), [.index k], []⟩
  else ⟨st.setIndex k 0, 0, (), [.index k], []⟩

def nvmReadGammaIdx : Nvm → Result Unit := readIndex .gamma

def nvmReadPqDBIdx : Nvm → Result Unit := readIndex .pqDB

/-- `nvm_write_gamma_idx` and `nvm_write_pqDB_idx`: only a new index is taken, whatever it is. -/
def writeIndex (k : Index) (idx : BitVec 32) (save : Bool) (st : Nvm) : Result Unit :=
  if idx ≠ st.index k then
    ⟨st.setIndex k idx, 0, (), [.index k], if save then [.index k] else []⟩
  else ⟨st, -1, (), [.index k], []⟩

def nvmWriteGammaIdx : BitVec 32 → Bool → Nvm → Result Unit := writeIndex .gamma

def nvmWritePqDBIdx : BitVec 32 → Bool → Nvm → Result Unit := writeIndex .pqDB

/-! ## Runs -/

inductive Op where
  | readCursource
  | readPicMode
  | writePicMode (curPicMode : BitVec 32) (save : Bool)
  | readPicParam (curPicMode : BitVec 32)
  | writePicParam (curPicMode : BitVec 32) (tab : PicmodTable) (save : Bool)
  | readWbMode
  | writeWbMode (curWbMode : BitVec 32) (save : Bool)
  | readWbParam (curWbMode : BitVec 32)
  | writeWbParam (curWbMode : BitVec 32) (tab : Wb) (save : Bool)
  | readGammaIdx
  | writeGammaIdx (idx : BitVec 32) (save : Bool)
  | readPqDBIdx
  | writePqDBIdx (idx : BitVec 32) (save : Bool)

/-- What a call returns, with the picture table it hands out. -/
structure Told where
  ret : Int
  tab : Option PicmodTable
  cells : List Cell

def Result.told {α : Type} (r : Result α) : Told := ⟨r.ret, none, r.cells⟩

def step (st : Nvm) : Op → Nvm × Told
  | .readCursource => ((nvmReadCursource st).nvm, (nvmReadCursource st).told)
  | .readPicMode => ((nvmReadPicMode st).nvm, (nvmReadPicMode st).told)
  | .writePicMode x save => ((nvmWritePicMode x save st).nvm, (nvmWritePicMode x save st).told)
  | .readPicParam x =>
    let r := nvmReadPicParam x st
    (r.nvm, ⟨r.ret, some r.out, r.cells⟩)
  | .writePicParam x tab save =>
    ((nvmWritePicParam x tab save st).nvm, (nvmWritePicParam x tab save st).told)
  | .readWbMode => ((nvmReadWbMode st).nvm, (nvmReadWbMode st).told)
  | .writeWbMode x save => ((nvmWriteWbMode x save st).nvm, (nvmWriteWbMode x save st).told)
  | .readWbParam x => ((nvmReadWbParam x st).nvm, (nvmReadWbParam x st).told)
  | .writeWbParam x tab save =>
    ((nvmWriteWbParam x tab save st).nvm, (nvmWriteWbParam x tab save st).told)
  | .readGammaIdx => ((nvmReadGammaIdx st).nvm, (nvmReadGammaIdx st).told)
  | .writeGammaIdx x save => ((nvmWriteGammaIdx x save st).nvm, (nvmWriteGammaIdx x save st).told)
  | .readPqDBIdx => ((nvmReadPqDBIdx st).nvm, (nvmReadPqDBIdx st).told)
  | .writePqDBIdx x save => ((nvmWritePqDBIdx x save st).nvm, (nvmWritePqDBIdx x save st).told)

/-! ## What is expected -/

/-- What it holds is of its enumeration, or inside its table. -/
def Cell.Fine (st : Nvm) : Cell → Prop
  | .mode k i => (st.mode k i).toNat < k.max
  | .picmode i j => (st.picmode i j).picmod.toNat < picmodMax
  | .index k => (st.index k).toNat < k.size
  | .wb _ | .factoryDataFlag => True

def Below (max : Nat) (x : Int) : Prop := 0 ≤ x ∧ x < max

instance (max : Nat) (x : Int) : Decidable (Below max x) := inferInstanceAs (Decidable (_ ∧ _))

/-- What a reader returns is in range, and so is what a writer stores that returns 0. -/
def Returns (r : Nvm × Told) : Op → Prop
  | .readCursource => Below ePQSrcMax r.2.ret
  | .readPicMode => Below Mode.pic.max r.2.ret
  | .readWbMode => Below Mode.wb.max r.2.ret
  | .readGammaIdx => Below Index.gamma.size r.2.ret
  | .readPqDBIdx => Below Index.pqDB.size r.2.ret
  | .readPicParam _ => ∀ tab ∈ r.2.tab, tab.picmod.toNat < picmodMax
  | .readWbParam _ => True
  | _ => r.2.ret = 0 → ∀ c ∈ r.2.cells, c.Fine r.1

def Right (st : Nvm) (op : Op) : Prop :=
  (∀ c ∈ (step st op).2.cells, c.InBounds) ∧ Returns (step st op) op

/-- The state and the arguments of a call that goes right. -/
def Fit (st : Nvm) : Op → Prop
  | .readCursource | .readGammaIdx | .readPqDBIdx => True
  | .readPicMode => st.source < ePQSrcMax ∧ (Cell.mode .pic st.source).Fine st
  | .readWbMode => st.source < ePQSrcMax ∧ (Cell.mode .wb st.source).Fine st
  | .writePicMode x _ => st.source < ePQSrcMax → 0 ≤ x.toInt
  | .writeWbMode x _ => st.source < ePQSrcMax → 0 ≤ x.toInt ∧ x.toInt ≠ eWBMax
  | .readPicParam x =>
    if st.source < ePQSrcMax ∧ x.toNat < picmodMax then (Cell.picmode st.source x.toNat).Fine st
    else (Cell.picmode 0 0).Fine st
  | .writePicParam x tab _ =>
    st.source < ePQSrcMax → x.toNat < picmodMax → tab.picmod.toNat < picmodMax
  | .readWbParam x | .writeWbParam x _ _ => 0 ≤ x.toInt
  | .writeGammaIdx x _ => x = st.index .gamma ∨ x.toNat < Index.gamma.size
  | .writePqDBIdx x _ => x = st.index .pqDB ∨ x.toNat < Index.pqDB.size

/-! ## One call -/

section
variable {st : Nvm} {k : Mode} {n : Nat} {x : BitVec 32}

theorem below_toInt (hn : n ≤ 2 ^ 31) : Below n x.toInt ↔ x.toNat < n := by
  have hlt := x.isLt
  unfold Below
  rw [BitVec.toInt_eq_toNat_cond]
  split <;> omega

theorem ret_failed : ¬ (-1 : Int) = 0 := by decide

theorem source_nonneg : 0 ≤ st.source := Int.natCast_nonneg _

theorem mode_inBounds : (Cell.mode k st.source).InBounds ↔ st.source < ePQSrcMax :=
  and_iff_right source_nonneg

@[simp] theorem setMode_self {i : Int} : (st.setMode k i x).mode k i = x := by
  simp [Nvm.setMode]

@[simp] theorem setPicmode_self {i j : Int} {tab : PicmodTable} :
    (st.setPicmode i j tab).picmode i j = tab := by
  simp [Nvm.setPicmode]

@[simp] theorem setIndex_self {k : Index} : (st.setIndex k x).index k = x := by
  simp [Nvm.setIndex]

theorem readMode_right {std : BitVec 32} :
    (∀ c ∈ (readMode k std st).cells, c.InBounds) ∧ Below k.max (readMode k std st).ret ↔
      st.source < ePQSrcMax ∧ (Cell.mode k st.source).Fine st := by
  have hmax : k.max ≤ 2 ^ 31 := by cases k <;> decide
  unfold readMode
  dsimp only
  split
  · rename_i hs
    rw [List.forall_mem_singleton, mode_inBounds]
    exact and_congr_right fun _ => below_toInt hmax
  · rename_i hs
    rw [List.forall_mem_singleton, mode_inBounds]
    exact iff_of_false (fun h => hs h.1) fun h => hs h.1

theorem writeMode_right {max : Nat} {save : Bool} :
    (∀ c ∈ (writeMode k max x save st).cells, c.InBounds) ∧
        ((writeMode k max x save st).ret = 0 →
          ∀ c ∈ (writeMode k max x save st).cells, c.Fine (writeMode k max x save st).nvm) ↔
      (st.source < ePQSrcMax → x.toInt < max → x.toNat < k.max) := by
  unfold writeMode
  dsimp only
  split
  · rename_i hs
    rw [List.forall_mem_singleton, List.forall_mem_singleton, mode_inBounds, and_iff_right hs.1]
    simp only [Cell.Fine, setMode_self, hs.1, hs.2, forall_const]
  · rename_i hs
    refine iff_of_true ⟨fun _ h => absurd h List.not_mem_nil, fun h => absurd h ret_failed⟩ ?_
    exact fun h1 h2 => absurd ⟨h1, h2⟩ hs

theorem readIndex_right {k : Index} : (∀ c ∈ (readIndex k st).cells, c.InBounds) ∧
    Below k.size (readIndex k st).ret := by
  have hsize : k.size ≤ 2 ^ 31 := by cases k <;> decide
  have hpos : 0 < k.size := by cases k <;> decide
  unfold readIndex
  split
  · rename_i h
    exact ⟨List.forall_mem_singleton.mpr trivial, (below_toInt hsize).2 h⟩
  · exact ⟨List.forall_mem_singleton.mpr trivial, le_refl _, Int.natCast_pos.mpr hpos⟩

theorem writeIndex_right {k : Index} {save : Bool} :
    (∀ c ∈ (writeIndex k x save st).cells, c.InBounds) ∧
        ((writeIndex k x save st).ret = 0 →
          ∀ c ∈ (writeIndex k x save st).cells, c.Fine (writeIndex k x save st).nvm) ↔
      x = st.index k ∨ x.toNat < k.size := by
  unfold writeIndex
  split
  · rename_i hne
    rw [List.forall_mem_singleton, List.forall_mem_singleton, or_iff_right hne]
    simp only [Cell.InBounds, Cell.Fine, setIndex_self, true_and, forall_const]
  · rename_i heq
    exact iff_of_true ⟨List.forall_mem_singleton.mpr trivial, fun h => absurd h ret_failed⟩
      (.inl (not_not.mp heq))

theorem readPicParam_right : (∀ c ∈ (nvmReadPicParam x st).cells, c.InBounds) ∧
      (nvmReadPicParam x st).out.picmod.toNat < picmodMax ↔ Fit st (.readPicParam x) := by
  unfold nvmReadPicParam
  rw [Fit]
  split
  · rename_i h
    rw [List.forall_mem_singleton]
    exact and_iff_right ⟨⟨source_nonneg, h.1⟩, Int.natCast_nonneg _, Int.ofNat_lt.mpr h.2⟩
  · rw [List.forall_mem_singleton]
    exact and_iff_right ⟨⟨le_refl _, by decide⟩, le_refl _, by decide⟩

theorem writePicParam_right {tab : PicmodTable} {save : Bool} :
    (∀ c ∈ (nvmWritePicParam x tab save st).cells, c.InBounds) ∧
        ((nvmWritePicParam x tab save st).ret = 0 →
          ∀ c ∈ (nvmWritePicParam x tab save st).cells,
            c.Fine (nvmWritePicParam x tab save st).nvm) ↔
      Fit st (.writePicParam x tab save) := by
  unfold nvmWritePicParam
  rw [Fit]
  dsimp only
  split
  · rename_i h
    rw [List.forall_mem_singleton, List.forall_mem_singleton,
      and_iff_right ⟨⟨source_nonneg, h.1⟩, Int.natCast_nonneg _, Int.ofNat_lt.mpr h.2⟩]
    simp only [Cell.Fine, setPicmode_self, h.1, h.2, forall_const]
  · rename_i h
    refine iff_of_true ⟨fun _ h => absurd h List.not_mem_nil, fun h => absurd h ret_failed⟩ ?_
    exact fun h1 h2 => absurd ⟨h1, h2⟩ h

theorem wb_inBounds (h : x.toInt < eWBMax) : (Cell.wb x.toInt).InBounds ↔ 0 ≤ x.toInt :=
  and_iff_left h

theorem nonneg_of_le (h : ¬ x.toInt < eWBMax) : 0 ≤ x.toInt := by
  unfold eWBMax at h
  omega

theorem readWbParam_right :
    (∀ c ∈ (nvmReadWbParam x st).cells, c.InBounds) ↔ 0 ≤ x.toInt := by
  unfold nvmReadWbParam
  split
  · rename_i h
    rw [List.forall_mem_singleton, wb_inBounds h]
  · rename_i h
    rw [List.forall_mem_singleton]
    exact iff_of_true ⟨by decide, by decide⟩ (nonneg_of_le h)

theorem writeWbParam_cells {tab : Wb} {save : Bool} : (nvmWriteWbParam x tab save st).cells =
    if x.toInt < eWBMax then [.wb x.toInt] else [] := by
  unfold nvmWriteWbParam
  dsimp only
  split
  · split
    · split <;> rfl
    · rfl
  · rfl

theorem writeWbParam_right {tab : Wb} {save : Bool} :
    (∀ c ∈ (nvmWriteWbParam x tab save st).cells, c.InBounds) ∧
        ((nvmWriteWbParam x tab save st).ret = 0 →
          ∀ c ∈ (nvmWriteWbParam x tab save st).cells,
            c.Fine (nvmWriteWbParam x tab save st).nvm) ↔ 0 ≤ x.toInt := by
  rw [writeWbParam_cells]
  split
  · rename_i h
    rw [List.forall_mem_singleton, List.forall_mem_singleton, wb_inBounds h]
    exact and_iff_left fun _ => trivial
  · rename_i h
    exact iff_of_true ⟨fun _ h => absurd h List.not_mem_nil,
      fun _ _ h => absurd h List.not_mem_nil⟩ (nonneg_of_le h)

end

/-- **One call** goes right when its state and its arguments are fit. -/
theorem right_iff_fit (st : Nvm) (op : Op) : Right st op ↔ Fit st op := by
  cases op with
  | readCursource =>
    refine iff_of_true ⟨?_, ?_⟩ trivial
    · unfold step nvmReadCursource
      dsimp only
      split <;> exact fun _ h => absurd h List.not_mem_nil
    · unfold Returns step nvmReadCursource
      dsimp only
      split
      · rename_i h
        exact ⟨source_nonneg, h⟩
      · exact (by decide : Below ePQSrcMax ePQSrcHdmi.toNat)
  | readPicMode => exact readMode_right
  | readWbMode => exact readMode_right
  | writePicMode x save =>
    refine writeMode_right.trans (forall_congr' fun _ => ?_)
    rw [← below_toInt (by decide)]
    exact ⟨fun h => by by_contra hneg; exact hneg (h (by unfold picmodMax; omega)).1,
      fun h hlt => ⟨h, hlt⟩⟩
  | writeWbMode x save =>
    refine writeMode_right.trans (forall_congr' fun _ => ?_)
    rw [← below_toInt (by decide)]
    unfold Below Mode.max eWBMax picmodMax
    constructor
    · intro h
      by_cases hlt : x.toInt < 5
      · have := h hlt
        dsimp only at this
        omega
      · omega
    · intro h hlt
      dsimp only
      omega
  | readPicParam x =>
    refine Iff.trans (and_congr_right fun _ => ?_) readPicParam_right
    exact ⟨fun h => h _ rfl, fun h tab htab => by cases htab; exact h⟩
  | writePicParam x tab save => exact writePicParam_right
  | readWbParam x => exact (and_iff_left trivial).trans readWbParam_right
  | writeWbParam x tab save => exact writeWbParam_right
  | readGammaIdx => exact iff_of_true readIndex_right trivial
  | readPqDBIdx => exact iff_of_true readIndex_right trivial
  | writeGammaIdx x save => exact writeIndex_right
  | writePqDBIdx x save => exact writeIndex_right

/-! ## Every run -/

/-- Arguments of the enumerations: nothing is asked of a reader's picture mode. -/
def Op.Proper : Op → Prop
  | .writePicMode x _ => 0 ≤ x.toInt
  | .writeWbMode x _ => 0 ≤ x.toInt ∧ x.toInt ≠ eWBMax
  | .writePicParam _ tab _ => tab.picmod.toNat < picmodMax
  | .readWbParam x | .writeWbParam x _ _ => 0 ≤ x.toInt
  | .writeGammaIdx x _ => x.toNat < Index.gamma.size
  | .writePqDBIdx x _ => x.toNat < Index.pqDB.size
  | _ => True

/-- The source is one, and what is stored for it is of its enumeration. -/
structure Sound (st : Nvm) : Prop where
  source : st.source < ePQSrcMax
  mode : ∀ k, (Cell.mode k st.source).Fine st
  picmode : ∀ j : Nat, j < picmodMax → (Cell.picmode st.source j).Fine st
  std : (Cell.picmode 0 0).Fine st

section
variable {st : Nvm}

theorem Sound.fit (h : Sound st) {op : Op} (hop : op.Proper) : Fit st op := by
  cases op with
  | readCursource | readGammaIdx | readPqDBIdx => trivial
  | readPicMode => exact ⟨h.source, h.mode .pic⟩
  | readWbMode => exact ⟨h.source, h.mode .wb⟩
  | writePicMode x save => exact fun _ => hop
  | writeWbMode x save => exact fun _ => hop
  | readPicParam x =>
    rw [Fit]
    split
    · rename_i hx
      exact h.picmode _ hx.2
    · exact h.std
  | writePicParam x tab save => exact fun _ _ => hop
  | readWbParam x => exact hop
  | writeWbParam x tab save => exact hop
  | writeGammaIdx x save => exact .inr hop
  | writePqDBIdx x save => exact .inr hop

theorem Sound.readMode (h : Sound st) (k : Mode) (std : BitVec 32) :
    Sound (readMode k std st).nvm := by
  unfold Settings.readMode
  dsimp only
  rw [if_pos h.source]
  exact h

/-- A mode that is fine is written. -/
theorem Sound.setMode (h : Sound st) {k : Mode} {x : BitVec 32} (hx : x.toNat < k.max) :
    Sound (st.setMode k st.source x) where
  source := h.source
  mode k' := by
    by_cases hk : k' = k
    · subst hk
      exact (congrArg (·.toNat < k'.max) setMode_self).mpr hx
    · have hsame : (st.setMode k st.source x).mode k' = st.mode k' := Function.update_of_ne hk _ _
      exact (congrArg (fun f => (f st.source).toNat < k'.max) hsame).mpr (h.mode k')
  picmode := h.picmode
  std := h.std

theorem Sound.writeMode (h : Sound st) {k : Mode} {max : Nat} {x : BitVec 32} {save : Bool}
    (hx : x.toInt < max → x.toNat < k.max) : Sound (writeMode k max x save st).nvm := by
  unfold Settings.writeMode
  dsimp only
  split
  · rename_i hs
    exact h.setMode (hx hs.2)
  · exact h

theorem setPicmode_fine {tab : PicmodTable} {i j a b : Int} (htab : tab.picmod.toNat < picmodMax)
    (h : (Cell.picmode a b).Fine st) : (Cell.picmode a b).Fine (st.setPicmode i j tab) := by
  unfold Cell.Fine Nvm.setPicmode at *
  by_cases ha : a = i
  · subst ha
    by_cases hb : b = j
    · subst hb
      simpa using htab
    · simpa [Function.update_of_ne hb] using h
  · simpa [Function.update_of_ne ha] using h

theorem Sound.writePicParam (h : Sound st) {x : BitVec 32} {tab : PicmodTable} {save : Bool}
    (htab : tab.picmod.toNat < picmodMax) : Sound (nvmWritePicParam x tab save st).nvm := by
  unfold nvmWritePicParam
  dsimp only
  split
  · exact ⟨h.source, h.mode, fun j hj => setPicmode_fine htab (h.picmode j hj),
      setPicmode_fine htab h.std⟩
  · exact h

theorem Sound.writeWbParam (h : Sound st) (x : BitVec 32) (tab : Wb) (save : Bool) :
    Sound (nvmWriteWbParam x tab save st).nvm := by
  have hset : Sound (st.setWb x.toInt tab) := ⟨h.source, h.mode, h.picmode, h.std⟩
  unfold nvmWriteWbParam
  dsimp only
  split
  · split
    · split
      · exact ⟨h.source, h.mode, h.picmode, h.std⟩
      · exact hset
    · exact hset
  · exact h

theorem Sound.readIndex (h : Sound st) (k : Index) : Sound (readIndex k st).nvm := by
  unfold Settings.readIndex
  split
  · exact h
  · exact ⟨h.source, h.mode, h.picmode, h.std⟩

theorem Sound.writeIndex (h : Sound st) (k : Index) (x : BitVec 32) (save : Bool) :
    Sound (writeIndex k x save st).nvm := by
  unfold Settings.writeIndex
  split
  · exact ⟨h.source, h.mode, h.picmode, h.std⟩
  · exact h

/-- **One call** with proper arguments keeps the state sound. -/
theorem Sound.step (h : Sound st) {op : Op} (hop : op.Proper) : Sound (step st op).1 := by
  cases op with
  | readCursource =>
    unfold Settings.step nvmReadCursource
    dsimp only
    rw [if_pos h.source]
    exact h
  | readPicMode => exact h.readMode _ _
  | readWbMode => exact h.readMode _ _
  | writePicMode x save =>
    exact h.writeMode fun hlt => (below_toInt (by decide)).1 ⟨hop, hlt⟩
  | writeWbMode x save =>
    refine h.writeMode fun hlt => (below_toInt (by decide)).1 ⟨hop.1, ?_⟩
    have hne := hop.2
    unfold Mode.max eWBMax picmodMax at *
    dsimp only
    omega
  | readPicParam x =>
    unfold Settings.step nvmReadPicParam
    dsimp only
    split <;> exact h
  | writePicParam x tab save => exact h.writePicParam hop
  | readWbParam x =>
    unfold Settings.step nvmReadWbParam
    dsimp only
    split <;> exact h
  | writeWbParam x tab save => exact h.writeWbParam x tab save
  | readGammaIdx => exact h.readIndex _
  | readPqDBIdx => exact h.readIndex _
  | writeGammaIdx x save => exact h.writeIndex _ x save
  | writePqDBIdx x save => exact h.writeIndex _ x save

/-- A state from which every proper run goes right. -/
theorem sound_of_right (h : ∀ op : Op, op.Proper → Right st op) : Sound st := by
  have hfit (op : Op) (hop : op.Proper) : Fit st op := (right_iff_fit st op).1 (h op hop)
  have hpic := hfit .readPicMode trivial
  have hwb := hfit .readWbMode trivial
  refine ⟨hpic.1, ?_, ?_, ?_⟩
  · rintro (_ | _)
    · exact hpic.2
    · exact hwb.2
  · intro j hj
    have hpar := hfit (.readPicParam (BitVec.ofNat 32 j)) trivial
    have hnat : (BitVec.ofNat 32 j).toNat = j := by
      unfold picmodMax at hj
      rw [BitVec.toNat_ofNat]
      omega
    rwa [Fit, hnat, if_pos ⟨hpic.1, hj⟩] at hpar
  · have hpar := hfit (.readPicParam 5) trivial
    rwa [Fit, if_neg (fun hlt => absurd hlt.2 (by decide))] at hpar

end

/-- **Stored settings**: a run goes right when each call is fit; and all runs with proper arguments
do, from the sound states and from no others. -/
theorem right_runs (st : Nvm) :
    (∀ ops, Each Right step st ops ↔ Each Fit step st ops) ∧
      ((∀ ops : List Op, (∀ op ∈ ops, op.Proper) → Each Right step st ops) ↔ Sound st) := by
  have hone (s : Nvm) (op : Op) (_ : True) : (Right s op ↔ Fit s op) ∧ (Fit s op → True) :=
    ⟨right_iff_fit s op, fun _ => trivial⟩
  have hproper (s : Nvm) (op : Op) (hs : Sound s) (hop : op.Proper) :
      Sound (step s op).1 ∧ Right s op := ⟨hs.step hop, (right_iff_fit s op).2 (hs.fit hop)⟩
  refine ⟨fun ops => each_iff hone trivial, fun h => sound_of_right fun op hop => ?_,
    fun h ops hops => each_inv hproper h (each_of_forall_mem hops st)⟩
  exact (h [op] (List.forall_mem_singleton.mpr hop)).1

/-- Nothing but zeros in the flash. -/
def blank : Nvm where
  curSource := 0
  mode _ _ := 0
  picmode _ _ := ⟨0, 0, 0, 0, 0⟩
  index _ := 0
  wb _ := ⟨0, 0, 0, 0, 0, 0, 0, 0, 0⟩
  factoryDataFlag := 0

/-- **Out of range**: `eWB_MAX` is stored as a mode, and source 7 is used as an index. -/
theorem not_right_mode : ¬ Each Right step blank [.writeWbMode 4 false] ∧
    ¬ Each Right step { blank with curSource := 7 } [.readPicMode] := by
  constructor
  · rintro ⟨h, -⟩
    exact ((right_iff_fit _ _).1 h (by decide)).2 (by decide)
  · rintro ⟨h, -⟩
    exact absurd ((right_iff_fit _ _).1 h).1 (by decide)

end VendorAmlogic.Fbc.Settings
