import VendorAmlogic.Amsub.VobReset

/-!
# Memory safety of DVD subtitle decoding

A packet is safe to decode when its control area ends where it should, a nibble of
the contrast is zero, the rows of both fields fit their words, and the cut picture
fits `amsub_data`. Nothing is read behind `amsub_data`: behind a packet there are
zeros, and these end a row each.
-/

namespace VendorAmlogic.Amsub.Vob

open VendorAmlogic.Lib

/-- `amsub_data` with a packet, and zeros behind it. -/
def packetMem (bytes : List Byte) : Mem := fun i => bytes.getD i 0

/-- The length of a packet is an `unsigned short`. -/
structure Packet where
  bytes : List Byte
  length_lt : bytes.length < 2 ^ 16

def Packet.mem (pkt : Packet) : Mem := packetMem pkt.bytes

/-- Nothing is read behind the packet or `amsub_data`, nor is anything written behind
`PixelDatas`, a field or `amsub_data`. -/
def Safe (palette : Option (Nat → Rgba)) (pkt : Packet) (s : Spu) (c : Colors) (heap : Words) :
    Prop :=
  decodeAndReset palette pkt.mem pkt.bytes.length s c heap ≠ none

/-- The codes of the rows of a field, and room for their words. -/
def FieldFits (data : Mem) (addr : Half) (s : Spu) : Prop :=
  ∃ codes : List (List Code), codes.length = s.height / 2 ∧ Lines data s.width (2 * addr) 0 codes ∧
    lineWords s.width 0 codes ≤ fieldWords

/-- What the commands leave fits. -/
structure Spu.Fits (s : Spu) (data : Mem) : Prop where
  contrast : ∃ i < 4, (s.alpha : Nat) / 16 ^ i % 16 = 0
  top : FieldFits data s.top s
  bottom : FieldFits data s.bottom s
  picture : s.height * cutWidth s.width * 4 ≤ vobSubSize

/-! ## Fields -/

theorem read_packetMem (bytes : List Byte) : (packetMem bytes).read 0 bytes.length = bytes :=
  Mem.eq_read rfl fun i _ => by rw [Nat.zero_add]; rfl

theorem packetMem_behind {bytes : List Byte} (hlt : bytes.length < 2 ^ 16) {i : Nat}
    (hi : 2 ^ 16 ≤ i) : packetMem bytes i = 0 :=
  List.getD_eq_default _ _ (by omega)

theorem Packet.mem_read (pkt : Packet) : pkt.mem.read 0 pkt.bytes.length = pkt.bytes :=
  read_packetMem pkt.bytes

/-- The count is below `n` when one of the first `n` nibbles is zero. -/
theorem changeData_lt (a n : Nat) : changeData a < n ↔ ∃ i < n, a / 16 ^ i % 16 = 0 := by
  induction n generalizing a with
  | zero => simp
  | succ n ih =>
    rw [changeData]
    split
    · rename_i h0
      exact iff_of_true (Nat.succ_pos n) ⟨0, Nat.succ_pos n, by rwa [Nat.pow_zero, Nat.div_one]⟩
    · rename_i h0
      rw [Nat.add_lt_add_iff_right, ih]
      constructor
      · rintro ⟨i, hi, hzero⟩
        exact ⟨i + 1, by omega, by rwa [Nat.pow_succ', ← Nat.div_div_eq_div_mul]⟩
      · rintro ⟨i, hi, hzero⟩
        cases i with
        | zero => exact absurd (by rwa [Nat.pow_zero, Nat.div_one] at hzero) h0
        | succ i =>
          exact ⟨i, by omega, by rwa [Nat.pow_succ', ← Nat.div_div_eq_div_mul] at hzero⟩

theorem spuFillPixel_iff {data : Mem} {addr : Half} {s : Spu}
    (hdata : ∀ i, 2 ^ 16 ≤ i → data i = 0) :
    spuFillPixel data addr s ≠ none ↔ changeData s.alpha < 4 ∧ FieldFits data addr s := by
  by_cases hchange : changeData s.alpha < 4
  · rw [and_iff_right hchange]
    constructor
    · intro hne
      obtain ⟨codes, hlen, hlines⟩ := exists_lines data s.width (2 * addr) 0 (s.height / 2)
      have hspec := spuFillPixel_spec hdata hchange hlines hlen
      refine ⟨codes, hlen, hlines, ?_⟩
      by_contra hlong
      rw [if_neg hlong] at hspec
      exact hne hspec
    · rintro ⟨codes, hlen, hlines, hfits⟩
      have hspec := spuFillPixel_spec hdata hchange hlines hlen
      rw [if_pos hfits] at hspec
      obtain ⟨out, hout, -⟩ := hspec
      rw [hout]
      exact Option.some_ne_none _
  · refine iff_of_false ?_ fun h => hchange h.1
    unfold spuFillPixel
    dsimp only
    rw [if_neg hchange]
    exact fun h => h rfl

theorem background_width (s : Spu) : s.background.width = s.width := by
  unfold Spu.background
  dsimp only
  split <;> rfl

theorem background_height (s : Spu) : s.background.height = s.height := by
  unfold Spu.background
  dsimp only
  split <;> rfl

/-! ## Packets -/

/-- The rest of the decoding, behind the commands. -/
theorem decode_iff {palette : Option (Nat → Rgba)} {pkt : Packet} {s s' : Spu} {c : Colors}
    {heap : Words} {d : Nat} {r : Int}
    (hrun : getSpuCmd pkt.bytes s = some ({ s' with mDelay := d }, r)) :
    Safe palette pkt s c heap ↔ s'.Fits pkt.mem := by
  have hfill : ∀ addr : Half, spuFillPixel pkt.mem addr { s' with mDelay := d } ≠ none ↔
      changeData s'.alpha < 4 ∧ FieldFits pkt.mem addr s' :=
    fun addr => spuFillPixel_iff fun i hi => packetMem_behind pkt.length_lt hi
  have hreset : ∀ (bytes : Nat → Nat) (pal : List Rgba),
      amsubVobResetData bytes ({ s' with mDelay := d } : Spu).background pal heap ≠ none ↔
        s'.height * cutWidth s'.width * 4 ≤ vobSubSize := by
    intro bytes pal
    rw [reset_iff, background_width, background_height]
  unfold Safe decodeAndReset decodeFrame
  rw [pkt.mem_read, hrun, Option.bind_some]
  dsimp only
  constructor
  · intro hne
    cases hodd : spuFillPixel pkt.mem s'.top { s' with mDelay := d } with
    | none =>
      rw [hodd] at hne
      exact absurd rfl hne
    | some odd =>
      cases heven : spuFillPixel pkt.mem s'.bottom { s' with mDelay := d } with
      | none =>
        rw [hodd, heven] at hne
        exact absurd rfl hne
      | some even =>
        rw [hodd, heven] at hne
        obtain ⟨hchange, htop⟩ := (hfill s'.top).mp (by rw [hodd]; exact Option.some_ne_none _)
        obtain ⟨-, hbottom⟩ := (hfill s'.bottom).mp (by rw [heven]; exact Option.some_ne_none _)
        exact ⟨(changeData_lt _ 4).mp hchange, htop, hbottom, (hreset _ _).mp hne⟩
  · rintro ⟨hcontrast, htop, hbottom, hpicture⟩
    have hchange := (changeData_lt s'.alpha 4).mpr hcontrast
    obtain ⟨odd, hodd⟩ := Option.ne_none_iff_exists'.mp ((hfill s'.top).mpr ⟨hchange, htop⟩)
    obtain ⟨even, heven⟩ :=
      Option.ne_none_iff_exists'.mp ((hfill s'.bottom).mpr ⟨hchange, hbottom⟩)
    rw [hodd, heven]
    exact (hreset _ _).mpr hpicture

/-- **Memory safety** of decoding a packet: its commands end inside it, and what they leave
fits. -/
theorem safe_iff (palette : Option (Nat → Rgba)) (pkt : Packet) (s : Spu) (c : Colors)
    (heap : Words) : Safe palette pkt s c heap ↔
      ∃ cs, Control pkt.bytes s cs ∧ (s.after cs).Fits pkt.mem := by
  constructor
  · intro hsafe
    cases hrun : getSpuCmd pkt.bytes s with
    | none =>
      refine absurd ?_ hsafe
      unfold decodeAndReset decodeFrame
      rw [pkt.mem_read, hrun]
      rfl
    | some r =>
      obtain ⟨cs, hcs⟩ := control_of_getSpuCmd hrun
      obtain ⟨d, r', hrun'⟩ := getSpuCmd_of_control hcs
      exact ⟨cs, hcs, (decode_iff hrun').mp hsafe⟩
  · rintro ⟨cs, hcs, hfits⟩
    obtain ⟨d, r, hrun⟩ := getSpuCmd_of_control hcs
    exact (decode_iff hrun).mpr hfits

/-- `SET_DAREA` alone, for all of a screen of 720 columns and 480 rows. -/
def fullScreen : Packet where
  bytes := [0x00, 0x0C, 0x00, 0x00, 0x05, 0x00, 0x02, 0xCF, 0x00, 0x01, 0xDF, 0xFF]
  length_lt := by decide

/-- **A full screen** is more than `amsub_data` has room for. -/
theorem not_safe_fullScreen :
    ¬ Safe none fullScreen Spu.cleared ⟨false, 0, 0, 0, 0⟩ fun _ => 0 := by
  let area : Command spuLayout :=
    ⟨.setDarea, [0x00, 0x02, 0xCF, 0x00, 0x01, 0xDF], [], by decide, rfl, rfl⟩
  have hcs : Control fullScreen.bytes Spu.cleared [area] := ⟨[0xFF], rfl, .short (by decide)⟩
  obtain ⟨d, r, hrun⟩ := getSpuCmd_of_control hcs
  rw [decode_iff hrun]
  rintro ⟨-, -, -, hpicture⟩
  have hwidth : (Spu.cleared.after [area]).width = 720 := by decide
  have hheight : (Spu.cleared.after [area]).height = 480 := by decide
  rw [hwidth, hheight] at hpicture
  exact absurd hpicture (by decide)

end VendorAmlogic.Amsub.Vob
