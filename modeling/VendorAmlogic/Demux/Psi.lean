import Mathlib.Data.List.GetD
import Mathlib.Tactic
import VendorAmlogic.Lib.Bytes

/-!
# Sections and their packetisation

What the section demultiplexers are fed: MPEG-2 sections on one PID, cut into
the payloads of transport packets. A packet that starts a section carries a
`pointer_field`, the number of bytes before the first start; behind the last
section of a packet the payload is stuffed with `0xFF`.

`Item` is one payload, `Legal a items` says the payloads carry whole sections,
with the bytes `a` of a section in progress, and `sections a items` are the
sections completed. `Packet.bytes` is the packet itself.
-/

namespace VendorAmlogic.Demux

open VendorAmlogic.Lib

/-- `((b1 << 8) | b2) & 0xFFF`, and the three bytes of the header. -/
def secLen (b1 b2 : Byte) : Nat := (((b1.toNat <<< 8) ||| b2.toNat) &&& 0xFFF) + 3

theorem secLen_le (b1 b2 : Byte) : secLen b1 b2 ≤ 4098 := Nat.add_le_add_right Nat.and_le_right 3

/-- A section: the header gives its length, and `table_id` is not the stuffing
byte. -/
structure IsSection (s : List Byte) : Prop where
  header : 3 ≤ s.length
  length_eq : s.length = secLen (s.getD 1 0) (s.getD 2 0)
  length_le : s.length ≤ 4096
  tableId : s.getD 0 0 ≠ 0xFF

/-- The bytes of a section: as many as its header says. -/
structure IsWhole (s : List Byte) : Prop where
  header : 3 ≤ s.length
  length_eq : s.length = secLen (s.getD 1 0) (s.getD 2 0)

theorem IsSection.isWhole {s : List Byte} (h : IsSection s) : IsWhole s := ⟨h.header, h.length_eq⟩

/-- What follows the last whole section of a packet that starts one. -/
inductive Tail where
  | stuffing (k : Nat)
  | split (b : List Byte)

/-- The bytes of the section in progress after the packet. -/
def Tail.held : Tail → List Byte
  | .stuffing _ => []
  | .split b => b

def Tail.bytes : Tail → List Byte
  | .stuffing k => List.replicate k 0xFF
  | .split b => b

/-- At least one section starts: `ss`, or the one that is split. -/
def Tail.Follows (ss : List (List Byte)) : Tail → Prop
  | .stuffing _ => ss ≠ []
  | .split b => b ≠ []

/-- The payload of one packet. `skip` has none. -/
inductive Item where
  | skip
  | cont (b : List Byte)
  | fin (b : List Byte) (k : Nat)
  | start (r : List Byte) (ss : List (List Byte)) (t : Tail)

/-- `payload_unit_start_indicator`. -/
def Item.isStart : Item → Bool
  | .start .. => true
  | _ => false

def Item.payload : Item → List Byte
  | .skip => []
  | .cont b => b
  | .fin b k => b ++ List.replicate k 0xFF
  | .start r ss t => BitVec.ofNat 8 r.length :: (r ++ (ss.flatten ++ t.bytes))

/-- The payloads carry whole sections, `a` being the part of a section that the
payloads before have carried. -/
def Legal : List Byte → List Item → Prop
  | a, [] => a = []
  | a, .skip :: is => Legal a is
  | a, .cont b :: is => a ≠ [] ∧ b ≠ [] ∧ Legal (a ++ b) is
  | a, .fin b _ :: is => a ≠ [] ∧ b ≠ [] ∧ IsSection (a ++ b) ∧ Legal [] is
  | a, .start r ss t :: is =>
    ((a = [] ∧ r = []) ∨ (a ≠ [] ∧ r ≠ [] ∧ IsSection (a ++ r))) ∧
      (∀ s ∈ ss, IsSection s) ∧ t.Follows ss ∧ Legal t.held is

/-- The section a packet that starts one ends before its `pointer_field`. -/
def ended (a r : List Byte) : List (List Byte) := if a = [] then [] else [a ++ r]

/-- The sections completed by the payloads. -/
def sections : List Byte → List Item → List (List Byte)
  | _, [] => []
  | a, .skip :: is => sections a is
  | a, .cont b :: is => sections (a ++ b) is
  | a, .fin b _ :: is => (a ++ b) :: sections [] is
  | a, .start r ss t :: is => ended a r ++ (ss ++ sections t.held is)

/-- The bytes of the section in progress after a payload. -/
def Item.after (b : List Byte) : Item → List Byte
  | .skip => b
  | .cont d => b ++ d
  | .fin _ _ => []
  | .start _ _ t => t.held

/-- The sections completed by one payload. -/
def Item.completes (b : List Byte) : Item → List (List Byte)
  | .skip => []
  | .cont _ => []
  | .fin d _ => [b ++ d]
  | .start r ss _ => ended b r ++ ss

theorem sections_cons (b : List Byte) (i : Item) (is : List Item) :
    sections b (i :: is) = i.completes b ++ sections (i.after b) is := by
  cases i <;> simp [sections, Item.completes, Item.after]

theorem Legal.tail {b : List Byte} {i : Item} {is : List Item} (hl : Legal b (i :: is)) :
    Legal (i.after b) is := by
  cases i with
  | skip => exact hl
  | cont d => exact hl.2.2
  | fin d k => exact hl.2.2.2
  | start r ss t => exact hl.2.2.2

theorem Legal.isSection_completes {a : List Byte} {it : Item} {is : List Item} (h : Legal a (it :: is)) :
    ∀ s ∈ it.completes a, IsSection s := by
  cases it with
  | skip => simp [Item.completes]
  | cont b => simp [Item.completes]
  | fin b k =>
    simp only [Item.completes, List.mem_singleton, forall_eq]
    exact h.2.2.1
  | start r ss t =>
    intro s hs
    rcases List.mem_append.mp hs with hs | hs
    · unfold ended at hs
      split at hs
      · cases hs
      · rw [List.mem_singleton] at hs
        subst hs
        rcases h.1 with ⟨ha, -⟩ | ⟨-, -, hsec⟩
        · exact absurd ha ‹_›
        · exact hsec
    · exact h.2.1 s hs

theorem length_le_flatten {ss : List (List Byte)} (hss : ∀ x ∈ ss, IsSection x) :
    ss.length ≤ ss.flatten.length := by
  induction ss with
  | nil => exact Nat.le_refl 0
  | cons x ss ih =>
    have h1 := (hss x List.mem_cons_self).header
    have h2 := ih fun y hy => hss y (List.mem_cons_of_mem x hy)
    simp only [List.length_cons, List.flatten_cons, List.length_append]
    omega

/-- A part of a section whose header is complete is shorter than the header says. -/
theorem IsSection.prefix_lt {a c : List Byte} (h : IsSection (a ++ c)) (hc : c ≠ [])
    (h3 : 3 ≤ a.length) :
    a.length < secLen (a.getD 1 0) (a.getD 2 0) ∧ a.length ≤ 4096 := by
  have hlen := h.length_eq; have hle := h.length_le
  have hpos := List.length_pos_iff.mpr hc
  rw [List.getD_append a c 0 1 (by omega), List.getD_append a c 0 2 (by omega),
    List.length_append] at hlen
  rw [List.length_append] at hle
  omega

theorem IsSection.prefix_tableId {a c : List Byte} (h : IsSection (a ++ c)) (ha : a ≠ []) :
    a.getD 0 0 ≠ 0xFF := by
  have := h.tableId
  rwa [List.getD_append a c 0 0 (List.length_pos_iff.mpr ha)] at this

/-- A section in progress is ended by the payloads to come. -/
theorem Legal.exists_rest {a : List Byte} {is : List Item} (h : Legal a is) (ha : a ≠ []) :
    ∃ c, c ≠ [] ∧ IsSection (a ++ c) := by
  induction is generalizing a with
  | nil => exact absurd h ha
  | cons i is ih =>
    cases i with
    | skip => exact ih h ha
    | cont b =>
      obtain ⟨-, hb, h⟩ := h
      obtain ⟨c, hc, hsec⟩ := ih h (by simp [ha])
      exact ⟨b ++ c, by simp [hb], by rwa [← List.append_assoc]⟩
    | fin b k => exact ⟨b, h.2.1, h.2.2.1⟩
    | start r ss t =>
      obtain ⟨h, -⟩ := h
      rcases h with ⟨h, -⟩ | ⟨-, hr, hsec⟩
      · exact absurd h ha
      · exact ⟨r, hr, hsec⟩

/-! ## Packets -/

/-- One transport packet of a PID: a payload, and what else the header says. -/
structure Packet where
  item : Item
  priority : Bool
  cc : BitVec 4
  adaptation : Option (List Byte)

def Packet.adaptationBytes (p : Packet) : List Byte :=
  match p.adaptation with
  | none => []
  | some a => BitVec.ofNat 8 a.length :: a

def headByte1 (start priority : Bool) (hi : BitVec 5) : Byte :=
  0#1 ++ BitVec.ofBool start ++ BitVec.ofBool priority ++ hi

def headByte3 (adaptation payload : Bool) (cc : BitVec 4) : Byte :=
  0#2 ++ BitVec.ofBool adaptation ++ BitVec.ofBool payload ++ cc

/-- The packet on PID `pid`: no transport error, not scrambled. -/
def Packet.bytes (pid : BitVec 13) (p : Packet) : List Byte :=
  [0x47, headByte1 p.item.isStart p.priority (pid.extractLsb' 8 5), pid.extractLsb' 0 8,
    headByte3 p.adaptation.isSome (p.item.payload ≠ []) p.cc] ++
    (p.adaptationBytes ++ p.item.payload)

/-- The packet has the length of a transport packet. -/
def Packet.Fits (p : Packet) : Prop := 4 + (p.adaptationBytes.length + p.item.payload.length) = 188

instance (p : Packet) : Decidable p.Fits := inferInstanceAs (Decidable (_ = _))

section
variable (start priority payload adaptation : Bool) (cc : BitVec 4)

theorem headByte1_error (hi : BitVec 5) : headByte1 start priority hi &&& 0x80 = 0 := by
  revert start priority hi; decide

theorem headByte1_start (hi : BitVec 5) :
    (headByte1 start priority hi &&& 0x40 ≠ 0) ↔ start = true := by
  revert start priority hi; decide

theorem headByte1_hi (hi : BitVec 5) :
    (headByte1 start priority hi).toNat % 32 = hi.toNat := by
  revert start priority hi; decide

theorem headByte3_scrambling : headByte3 adaptation payload cc &&& 0xC0 = 0 := by
  revert adaptation payload cc; decide

theorem headByte3_payload :
    (headByte3 adaptation payload cc &&& 0x10 ≠ 0) ↔ payload = true := by
  revert adaptation payload cc; decide

theorem headByte3_adaptation :
    (headByte3 adaptation payload cc &&& 0x20 ≠ 0) ↔ adaptation = true := by
  revert adaptation payload cc; decide

theorem headByte3_cc : (headByte3 adaptation payload cc &&& 0x0F).toNat = cc.toNat := by
  revert adaptation payload cc; decide

/-- The PID read from a packet's header. -/
theorem head_pid (pid : BitVec 13) :
    (((headByte1 start priority (pid.extractLsb' 8 5)).toNat <<< 8) |||
      (pid.extractLsb' 0 8).toNat) &&& 0x1FFF = pid.toNat := by
  have h1 := headByte1_hi start priority (pid.extractLsb' 8 5)
  have h2 : (pid.extractLsb' 8 5).toNat = pid.toNat / 256 % 32 := by
    simp [BitVec.extractLsb'_toNat, Nat.shiftRight_eq_div_pow]
  have h3 : (pid.extractLsb' 0 8).toNat = pid.toNat % 256 := by
    simp [BitVec.extractLsb'_toNat]
  have h4 := pid.isLt
  rw [← Nat.shiftLeft_add_eq_or_of_lt (by omega), show 0x1FFF = 2 ^ 13 - 1 from rfl,
    Nat.and_two_pow_sub_one_eq_mod, Nat.shiftLeft_eq]
  omega

end

/-! ## Reading a packet -/

/-- The payload of the packet `p`, behind the adaptation field. -/
def tsPayload (p : List Byte) : List Byte :=
  let payload := (p.take 188).drop 4
  if p.getD 3 0 &&& 0x20 ≠ 0 then payload.drop ((payload.getD 0 0).toNat + 1) else payload

def tsPid (p : List Byte) : Nat := (((p.getD 1 0).toNat <<< 8) ||| (p.getD 2 0).toNat) &&& 0x1FFF

section
variable {p : Packet} (pid : BitVec 13)

theorem Packet.Fits.length_bytes (h : p.Fits) : (p.bytes pid).length = 188 := by
  unfold Packet.Fits at h
  simp only [Packet.bytes, List.length_append, List.length_cons, List.length_nil]
  omega

theorem Packet.Fits.payload_le (h : p.Fits) : p.item.payload.length ≤ 184 := by
  unfold Packet.Fits at h
  omega

theorem tsPid_bytes (p : Packet) : tsPid (p.bytes pid) = pid.toNat :=
  head_pid _ _ pid

theorem tsPayload_bytes (h : p.Fits) : tsPayload (p.bytes pid) = p.item.payload := by
  have hflag := headByte3_adaptation (decide (p.item.payload ≠ [])) p.adaptation.isSome p.cc
  have hbody : ((p.bytes pid).take 188).drop 4 = p.adaptationBytes ++ p.item.payload := by
    rw [List.take_of_length_le (Nat.le_of_eq (h.length_bytes pid))]
    rfl
  have h3 : (p.bytes pid).getD 3 0 =
      headByte3 p.adaptation.isSome (p.item.payload ≠ []) p.cc := rfl
  simp only [tsPayload, hbody, h3]
  cases ha : p.adaptation with
  | none =>
    simp only [ha, Option.isSome_none, Bool.false_eq_true, iff_false] at hflag
    simp only [Option.isSome_none, if_neg hflag, Packet.adaptationBytes, ha, List.nil_append]
  | some x =>
    simp only [ha, Option.isSome_some, iff_true] at hflag
    have hlen : x.length < 256 := by
      unfold Packet.Fits Packet.adaptationBytes at h
      simp only [ha, List.length_cons] at h
      omega
    have hx : (BitVec.ofNat 8 x.length).toNat + 1 = (BitVec.ofNat 8 x.length :: x).length := by
      rw [BitVec.toNat_ofNat, Nat.mod_eq_of_lt hlen, List.length_cons]
    simp only [Option.isSome_some, if_pos hflag, Packet.adaptationBytes, ha, List.cons_append,
      List.getD_cons_zero]
    rw [hx, ← List.cons_append, List.drop_left]

end

end VendorAmlogic.Demux
