import VendorAmlogic.Lib.Mem

/-!
# Reassembly of a DVD subtitle packet

The first part of `get_vob_spu`: a packet comes in fragments, the first with its
length from the caller, the others behind a header of sixteen bytes. A byte is an
`unsigned char`, as on ARM. A fragment that is longer than what is left of the
packet is neither copied nor skipped.
-/

namespace VendorAmlogic.Amsub.Vob

open VendorAmlogic.Lib

/-! ## Model -/

def vobSubWidth : Nat := 1920
def vobSubHeight : Nat := 1280
def vobSubSize : Nat := vobSubWidth * vobSubHeight / 4

/-- The mark of a header. -/
def amlMark : List Byte := [0x41, 0x4d, 0x4c, 0x55, 0xaa]

def extraMark : List Byte := [0x45, 0x58, 0x54, 0x52, 0x41]

/-- A number, most significant byte first. -/
def be (bs : List Byte) : Nat := bs.foldl (fun v b => 256 * v + b.toNat) 0

/-- Byte after byte against `mark`: whether all are the same, and how many were looked at. It is
nothing when the string ends before. -/
def compare : List Byte → List Byte → Option (Bool × Nat)
  | [], _ => some (true, 0)
  | _ :: _, [] => none
  | m :: ms, c :: cs =>
    if c ≠ m then some (false, 1) else (compare ms cs).map fun r => (r.1, r.2 + 1)

inductive Head where
  | ok (rd cur : Nat)
  | wrong (rd : Nat)
  | outside

/-- The header at `rd_oft`: type and PTS are skipped. -/
def nextHead (buf : List Byte) (rd : Nat) : Head :=
  match compare amlMark (buf.drop rd) with
  | none => .outside
  | some (false, k) => .wrong (rd + k)
  | some (true, _) =>
    if rd + 12 ≤ buf.length then .ok (rd + 16) (be ((buf.drop (rd + 8)).take 4)) else .outside

/-- `rd_oft`, `wr_oft`, `current_length` and `amsub_data`. -/
structure Frame where
  rd : Nat
  wr : Nat
  cur : Nat
  data : Mem

/-- How the loop ends: with a packet, with the bytes of no header, or with an access outside the
string or `amsub_data`. -/
inductive Ending where
  | ready (data : Mem) (rd : Nat)
  | wrongHead (rd : Nat)
  | outside
  | idle
  | extradata

/-- A fragment that fits is copied. -/
def place (buf : List Byte) (length : Nat) (s : Frame) : Frame ⊕ Ending :=
  if (s.wr + s.cur) % 2 ^ 32 ≤ length then
    if s.rd + s.cur ≤ buf.length ∧ s.wr + s.cur ≤ vobSubSize then
      let data := s.data.copy s.wr ((buf.drop s.rd).take s.cur)
      if s.wr + s.cur = length then .inr (.ready data (s.rd + s.cur))
      else .inl ⟨s.rd + s.cur, s.wr + s.cur, 0, data⟩
    else .inr .outside
  else .inl s

/-- Once around the loop. -/
def around (buf : List Byte) (length : Nat) (s : Frame) : Frame ⊕ Ending :=
  if s.wr < length then
    if s.cur = 0 then
      match nextHead buf s.rd with
      | .ok rd cur => place buf length { s with rd := rd, cur := cur }
      | .wrong rd => .inr (.wrongHead rd)
      | .outside => .inr .outside
    else place buf length s
  else .inr .idle

/-- So many times around. -/
def reassemble (buf : List Byte) (length : Nat) : Nat → Frame → Option Ending
  | 0, _ => none
  | n + 1, s =>
    match around buf length s with
    | .inl s => reassemble buf length n s
    | .inr r => some r

/-- `spu->length`. -/
def spuLength (buf : List Byte) : Nat := be (buf.take 2)

/-- `get_vob_spu`, to the end of its loop. -/
def getVobSpu (buf : List Byte) (length n : Nat) : Option Ending :=
  match compare extraMark buf with
  | none => some .outside
  | some (true, _) => some .extradata
  | some (false, _) =>
    if buf.length < 4 then some .outside
    else reassemble buf (spuLength buf) n ⟨0, 0, length, fun _ => 0⟩

/-! ## Fragments -/

structure Fragment where
  head : List Byte
  payload : List Byte

/-- The header has the mark, and tells the length. -/
structure Fragment.Proper (f : Fragment) : Prop where
  length : f.head.length = 16
  mark : amlMark <+: f.head
  claims : be ((f.head.drop 8).take 4) = f.payload.length

def joined (frs : List Fragment) : List Byte := frs.flatMap fun f => f.head ++ f.payload

def payloads (frs : List Fragment) : List Byte := frs.flatMap Fragment.payload

/-- The string is a first payload, fragments and something else. -/
structure Cut (buf : List Byte) (length : Nat) (first : List Byte) (frs : List Fragment)
    (rest : List Byte) : Prop where
  buf : buf = first ++ (joined frs ++ rest)
  first : first.length = length
  proper : ∀ f ∈ frs, f.Proper

/-- Bytes that are no header. -/
def NoHead (rest : List Byte) : Prop := ¬ amlMark <+: rest ∧ ¬ rest <+: amlMark

/-- The packet that the loop ends with is made of the payloads. -/
def Ending.Good (buf : List Byte) (length : Nat) : Ending → Prop
  | .ready data _ => ∃ first frs rest, Cut buf length first frs rest ∧
    data.read 0 (spuLength buf) = first ++ payloads frs
  | .outside => False
  | _ => True

/-- The loop ends, inside the string, and any packet is what came. -/
def Right (buf : List Byte) (length : Nat) : Prop :=
  ∃ n r, getVobSpu buf length n = some r ∧ r.Good buf length

/-- Fragments make the packet, or leave some of it when there is no further header. -/
def Fits (buf : List Byte) (length : Nat) : Prop :=
  ∃ first frs rest, Cut buf length first frs rest ∧
    ((first ++ payloads frs).length = spuLength buf ∨
      (first ++ payloads frs).length < spuLength buf ∧ NoHead rest)

/-! ## Headers -/

section
variable {mark s : List Byte}

theorem compare_mark (h : mark <+: s) : compare mark s = some (true, mark.length) := by
  induction mark generalizing s with
  | nil => rfl
  | cons m ms ih =>
    obtain ⟨t, rfl⟩ := h
    rw [List.cons_append, compare, if_neg (not_not.mpr rfl), ih (List.prefix_append ms t)]
    rfl

theorem compare_short (h : s <+: mark) (hne : ¬ mark <+: s) : compare mark s = none := by
  induction mark generalizing s with
  | nil => exact absurd List.nil_prefix hne
  | cons m ms ih =>
    cases s with
    | nil => rfl
    | cons c cs =>
      obtain ⟨rfl, hcs⟩ := List.cons_prefix_cons.mp h
      rw [compare, if_neg (not_not.mpr rfl),
        ih hcs fun hms => hne (List.cons_prefix_cons.mpr ⟨rfl, hms⟩)]
      rfl

theorem compare_wrong (hs : ¬ s <+: mark) (hm : ¬ mark <+: s) :
    ∃ k, compare mark s = some (false, k) := by
  induction mark generalizing s with
  | nil => exact absurd List.nil_prefix hm
  | cons m ms ih =>
    cases s with
    | nil => exact absurd List.nil_prefix hs
    | cons c cs =>
      by_cases hc : c = m
      · subst hc
        obtain ⟨k, hk⟩ := ih (fun h => hs (List.cons_prefix_cons.mpr ⟨rfl, h⟩))
          fun h => hm (List.cons_prefix_cons.mpr ⟨rfl, h⟩)
        exact ⟨k + 1, by rw [compare, if_neg (not_not.mpr rfl), hk]; rfl⟩
      · exact ⟨1, by rw [compare, if_pos hc]⟩

end

section
variable {buf first rest : List Byte} {frs : List Fragment} {f : Fragment} {st : Frame}
  {length n rd cur wr : Nat} {data : Mem} {r : Ending}

theorem nextHead_wrong (h : NoHead (buf.drop rd)) : ∃ k, nextHead buf rd = .wrong k := by
  obtain ⟨k, hk⟩ := compare_wrong h.2 h.1
  exact ⟨rd + k, by rw [nextHead, hk]⟩

/-- The header of a fragment is read. -/
theorem nextHead_proper (hf : f.Proper) (h : buf.drop rd = f.head ++ rest) :
    nextHead buf rd = .ok (rd + 16) f.payload.length := by
  have hlen := congrArg List.length h
  rw [List.length_drop, List.length_append, hf.length] at hlen
  have hfield : (buf.drop (rd + 8)).take 4 = (f.head.drop 8).take 4 := by
    rw [← List.drop_drop, h, List.drop_append_of_le_length (by rw [hf.length]; decide),
      List.take_append_of_le_length (by rw [List.length_drop, hf.length]; decide)]
  rw [nextHead, h, compare_mark (hf.mark.trans (List.prefix_append ..))]
  dsimp only
  rw [if_pos (by omega), hfield, hf.claims]

/-- A header that was read is one of a fragment, if its payload is there. -/
theorem nextHead_ok (h : nextHead buf rd = .ok n cur) (hin : n + cur ≤ buf.length) :
    ∃ f : Fragment, f.Proper ∧ n = rd + 16 ∧ f.payload.length = cur ∧
      buf.drop rd = f.head ++ (f.payload ++ buf.drop (n + cur)) := by
  unfold nextHead at h
  by_cases hmark : amlMark <+: buf.drop rd
  · rw [compare_mark hmark] at h
    dsimp only at h
    split at h
    · obtain ⟨rfl, hcur⟩ := Head.ok.inj h
      have hlen : ((buf.drop (rd + 16)).take cur).length = cur := by
        rw [List.length_take, List.length_drop]
        omega
      have hhead : ((buf.drop rd).take 16).length = 16 := by
        rw [List.length_take, List.length_drop]
        omega
      refine ⟨⟨(buf.drop rd).take 16, (buf.drop (rd + 16)).take cur⟩, ⟨hhead, ?_, ?_⟩, rfl, hlen,
        ?_⟩
      · exact List.prefix_take_iff.mpr ⟨hmark, by decide⟩
      · rw [List.drop_take, List.take_take, List.drop_drop]
        exact hcur.trans hlen.symm
      · dsimp only
        rw [← List.drop_drop (i := cur) (j := rd + 16), List.take_append_drop, ← List.drop_drop,
          List.take_append_drop]
    · cases h
  · by_cases hshort : buf.drop rd <+: amlMark
    · rw [compare_short hshort hmark] at h
      cases h
    · obtain ⟨k, hk⟩ := compare_wrong hshort hmark
      rw [hk] at h
      cases h

theorem nextHead_wrong_iff (h : nextHead buf rd = .wrong n) : NoHead (buf.drop rd) := by
  unfold nextHead at h
  by_cases hmark : amlMark <+: buf.drop rd
  · rw [compare_mark hmark] at h
    dsimp only at h
    split at h <;> cases h
  · refine ⟨hmark, fun hshort => ?_⟩
    rw [compare_short hshort hmark] at h
    cases h

/-! ## Once around -/

theorem place_fits (hrd : st.rd + st.cur ≤ buf.length) (hwr : st.wr + st.cur ≤ length)
    (hl : length < 2 ^ 16) : place buf length st =
      if st.wr + st.cur = length then
        .inr (.ready (st.data.copy st.wr ((buf.drop st.rd).take st.cur)) (st.rd + st.cur))
      else .inl ⟨st.rd + st.cur, st.wr + st.cur, 0,
        st.data.copy st.wr ((buf.drop st.rd).take st.cur)⟩ := by
  have hsize : 2 ^ 16 ≤ vobSubSize := by decide
  unfold place
  dsimp only
  rw [if_pos (by omega), if_pos ⟨hrd, by omega⟩]

theorem length_lt (buf : List Byte) : spuLength buf < 2 ^ 16 := by
  unfold spuLength be
  rcases buf with _ | ⟨a, _ | ⟨b, buf⟩⟩
  · decide
  · simp
    omega
  · simp
    omega

/-- What is not copied inside both buffers ends the loop, or stays as it is. -/
theorem place_cases (buf : List Byte) (length : Nat) (st : Frame) :
    (st.rd + st.cur ≤ buf.length ∧ st.wr + st.cur ≤ length) ∨
    place buf length st = .inr .outside ∨
    (length < (st.wr + st.cur) % 2 ^ 32 ∧ place buf length st = .inl st) := by
  have hsize : vobSubSize < 2 ^ 32 := by decide
  by_cases hfit : (st.wr + st.cur) % 2 ^ 32 ≤ length
  · by_cases hin : st.rd + st.cur ≤ buf.length ∧ st.wr + st.cur ≤ vobSubSize
    · exact .inl ⟨hin.1, by omega⟩
    · exact .inr (.inl (by unfold place; rw [if_pos hfit, if_neg hin]))
  · exact .inr (.inr ⟨by omega, by unfold place; rw [if_neg hfit]⟩)

/-- **No progress**: a fragment that does not fit stays where it is. -/
theorem reassemble_stuck (hwr : st.wr < length) (hcur : st.cur ≠ 0)
    (hfit : place buf length st = .inl st) (n : Nat) : reassemble buf length n st = none := by
  induction n with
  | zero => rfl
  | succ n ih =>
    rw [reassemble, around, if_pos hwr, if_neg hcur, hfit]
    exact ih

/-- At a header that is one. -/
theorem around_head (hcur : st.cur = 0) (hwr : st.wr < length)
    (h : nextHead buf st.rd = .ok rd cur) :
    around buf length st = place buf length { st with rd := rd, cur := cur } := by
  rw [around, if_pos hwr, if_pos hcur, h]

/-- In the middle of a fragment. -/
theorem around_copy (hwr : st.wr < length) (hcur : st.cur ≠ 0) :
    around buf length st = place buf length st := by
  rw [around, if_pos hwr, if_neg hcur]

theorem around_wrong (hcur : st.cur = 0) (hwr : st.wr < length)
    (h : nextHead buf st.rd = .wrong rd) : around buf length st = .inr (.wrongHead rd) := by
  rw [around, if_pos hwr, if_pos hcur, h]

theorem reassemble_inl {st' : Frame} (h : around buf length st = .inl st') :
    reassemble buf length (n + 1) st = reassemble buf length n st' := by
  rw [reassemble, h]

theorem reassemble_inr (h : around buf length st = .inr r) :
    reassemble buf length (n + 1) st = some r := by
  rw [reassemble, h]

/-! ## The loop -/

/-- It ends inside the string, with these bytes in front if with a packet. -/
def Ends (buf : List Byte) (length : Nat) (st : Frame) (bytes : List Byte) : Prop :=
  ∃ n r, reassemble buf length n st = some r ∧ r ≠ .outside ∧
    ∀ data rd, r = .ready data rd → data.read 0 length = bytes

theorem payloads_cons (f : Fragment) (frs : List Fragment) :
    payloads (f :: frs) = f.payload ++ payloads frs :=
  List.flatMap_cons ..

theorem joined_cons (f : Fragment) (frs : List Fragment) :
    joined (f :: frs) = f.head ++ (f.payload ++ joined frs) := by
  rw [joined, List.flatMap_cons, List.append_assoc]
  rfl

/-- A payload is copied: the packet is ready, or the loop goes on behind it. -/
theorem place_next {P : Ending → Prop} {payload tail : List Byte} (hl : length < 2 ^ 16)
    (hrd : rd ≤ buf.length) (hdrop : buf.drop rd = payload ++ tail)
    (hle : wr + payload.length ≤ length)
    (hready : wr + payload.length = length → ∀ k, P (.ready (data.copy wr payload) k))
    (hnext : ∀ st' : Frame, st'.cur = 0 → st'.wr = wr + payload.length →
      st'.data = data.copy wr payload → st'.wr < length → buf.drop st'.rd = tail →
      ∃ n r, reassemble buf length n st' = some r ∧ P r)
    (haround : around buf length st = place buf length ⟨rd, wr, payload.length, data⟩) :
    ∃ n r, reassemble buf length n st = some r ∧ P r := by
  have hlen := congrArg List.length hdrop
  rw [List.length_drop, List.length_append] at hlen
  have htake : (buf.drop rd).take payload.length = payload := by
    rw [hdrop, List.take_left]
  rw [place_fits (by dsimp only; omega) hle hl, htake] at haround
  by_cases hend : wr + payload.length = length
  · rw [if_pos hend] at haround
    exact ⟨1, _, reassemble_inr haround, hready hend _⟩
  · rw [if_neg hend] at haround
    obtain ⟨n, r, hrun, hr⟩ :=
      hnext ⟨rd + payload.length, wr + payload.length, 0, data.copy wr payload⟩ rfl rfl rfl
        (by dsimp only; omega) (by rw [← List.drop_drop, hdrop, List.drop_left])
    exact ⟨n + 1, r, by rw [reassemble_inl haround, hrun], hr⟩

/-- The same, with the bytes that are in front. -/
theorem ends_place {payload more tail : List Byte} (hl : length < 2 ^ 16)
    (hrd : rd ≤ buf.length) (hdrop : buf.drop rd = payload ++ tail)
    (hmore : wr + payload.length + more.length ≤ length)
    (hnext : ∀ st' : Frame, st'.cur = 0 → st'.wr = wr + payload.length → st'.wr < length →
      buf.drop st'.rd = tail → Ends buf length st' (st'.data.read 0 st'.wr ++ more))
    (haround : around buf length st = place buf length ⟨rd, wr, payload.length, data⟩) :
    Ends buf length st (data.read 0 wr ++ (payload ++ more)) := by
  have hread : (data.copy wr payload).read 0 (wr + payload.length) = data.read 0 wr ++ payload :=
    Mem.read_copy_append ..
  refine place_next hl hrd hdrop (by omega) (fun hend k => ?_)
    (fun st' hcur' hwr' hdata' hlt' hdrop' => ?_) haround
  · obtain rfl : more = [] := List.eq_nil_of_length_eq_zero (by omega)
    refine ⟨fun h => Ending.noConfusion h, fun data rd h => ?_⟩
    obtain ⟨rfl, -⟩ := Ending.ready.inj h
    rw [List.append_nil, ← hread, hend]
  · have h := hnext st' hcur' hwr' hlt' hdrop'
    rwa [hdata', hwr', hread, List.append_assoc] at h

/-- **Fragments that fit** are put together. -/
theorem ends_of_fits (hl : length < 2 ^ 16) (hproper : ∀ f ∈ frs, f.Proper)
    (hcur : st.cur = 0) (hwr : st.wr < length) (hdrop : buf.drop st.rd = joined frs ++ rest)
    (hsum : st.wr + (payloads frs).length = length ∨
      st.wr + (payloads frs).length < length ∧ NoHead rest) :
    Ends buf length st (st.data.read 0 st.wr ++ payloads frs) := by
  induction frs generalizing st with
  | nil =>
    have hno : NoHead (buf.drop st.rd) := by
      obtain hsum | ⟨-, hno⟩ := hsum
      · exact absurd hsum hwr.ne
      · rwa [hdrop]
    obtain ⟨k, hk⟩ := nextHead_wrong hno
    exact ⟨1, _, reassemble_inr (around_wrong hcur hwr hk), fun h => Ending.noConfusion h,
      fun _ _ h => Ending.noConfusion h⟩
  | cons f frs ih =>
    have hf := hproper f List.mem_cons_self
    rw [joined_cons, List.append_assoc, List.append_assoc] at hdrop
    rw [payloads_cons, List.length_append] at hsum
    have hlen := congrArg List.length hdrop
    rw [List.length_drop, List.length_append, hf.length] at hlen
    have hbehind : buf.drop (st.rd + 16) = f.payload ++ (joined frs ++ rest) := by
      rw [← List.drop_drop, hdrop, List.drop_left' hf.length]
    have haround := around_head hcur hwr (nextHead_proper hf hdrop)
    rw [payloads_cons]
    refine ends_place hl (by omega) hbehind (by omega)
      (fun st' hcur' hwr' hlt' hdrop' => ?_) haround
    refine ih (fun g hg => hproper g (List.mem_cons_of_mem f hg)) hcur' hlt' hdrop' ?_
    rw [hwr', Nat.add_assoc]
    exact hsum

/-- **The whole packet** is ready when its payloads have been copied. -/
theorem ready_of_fits (hl : length < 2 ^ 16) (hproper : ∀ f ∈ frs, f.Proper)
    (hcur : st.cur = 0) (hwr : st.wr < length) (hdrop : buf.drop st.rd = joined frs ++ rest)
    (hsum : st.wr + (payloads frs).length = length) :
    ∃ n r, reassemble buf length n st = some r ∧
      ∃ k, r = .ready (st.data.copy st.wr (payloads frs)) k := by
  induction frs generalizing st with
  | nil => exact absurd hsum hwr.ne
  | cons f frs ih =>
    have hf := hproper f List.mem_cons_self
    rw [joined_cons, List.append_assoc, List.append_assoc] at hdrop
    rw [payloads_cons, List.length_append] at hsum
    have hlen := congrArg List.length hdrop
    rw [List.length_drop, List.length_append, hf.length] at hlen
    have hbehind : buf.drop (st.rd + 16) = f.payload ++ (joined frs ++ rest) := by
      rw [← List.drop_drop, hdrop, List.drop_left' hf.length]
    have haround := around_head hcur hwr (nextHead_proper hf hdrop)
    rw [payloads_cons]
    refine place_next hl (by omega) hbehind (by omega) (fun hend k => ⟨k, ?_⟩)
      (fun st' hcur' hwr' hdata' hlt' hdrop' => ?_) haround
    · rw [List.eq_nil_of_length_eq_zero (l := payloads frs) (by omega), List.append_nil]
    · rw [Mem.copy_append, ← hdata', ← hwr']
      exact ih (fun g hg => hproper g (List.mem_cons_of_mem f hg)) hcur' hlt' hdrop'
        (by rw [hwr', Nat.add_assoc]; exact hsum)

/-- **A loop that ends** inside the string went over fragments that fit. -/
theorem fits_of_ends (hcur : st.cur = 0) (hwr : st.wr < length) (hl : length < 2 ^ 16)
    (hrun : reassemble buf length n st = some r) (hr : r ≠ .outside) :
    ∃ frs rest, buf.drop st.rd = joined frs ++ rest ∧ (∀ f ∈ frs, f.Proper) ∧
      (st.wr + (payloads frs).length = length ∨
        st.wr + (payloads frs).length < length ∧ NoHead rest) := by
  induction n generalizing st with
  | zero => cases hrun
  | succ n ih =>
    cases hhead : nextHead buf st.rd with
    | wrong k =>
      exact ⟨[], buf.drop st.rd, rfl, fun _ h => absurd h List.not_mem_nil,
        .inr ⟨hwr, nextHead_wrong_iff hhead⟩⟩
    | outside =>
      have haround : around buf length st = .inr .outside := by
        rw [around, if_pos hwr, if_pos hcur, hhead]
      rw [reassemble_inr haround] at hrun
      exact absurd (Option.some.inj hrun).symm hr
    | ok rd cur =>
      have haround := around_head hcur hwr hhead
      obtain ⟨hin, hle⟩ | hout | ⟨hlong, hstuck⟩ :=
        place_cases buf length { st with rd := rd, cur := cur }
      · obtain ⟨f, hf, rfl, rfl, hdrop⟩ := nextHead_ok hhead hin
        rw [place_fits hin hle hl] at haround
        dsimp only at haround hin hle
        split at haround
        · rename_i hend
          refine ⟨[f], buf.drop (st.rd + 16 + f.payload.length), ?_, ?_, .inl ?_⟩
          · rw [joined_cons, joined, List.flatMap_nil, List.append_nil, List.append_assoc, hdrop]
          · exact List.forall_mem_singleton.mpr hf
          · rw [payloads_cons, payloads, List.flatMap_nil, List.append_nil, hend]
        · rw [reassemble_inl haround] at hrun
          obtain ⟨frs, rest, hdrop', hproper, hsum⟩ := ih rfl (by dsimp only; omega) hrun
          refine ⟨f :: frs, rest, ?_, List.forall_mem_cons.mpr ⟨hf, hproper⟩, ?_⟩
          · rw [joined_cons, List.append_assoc, List.append_assoc, hdrop]
            exact congrArg (fun l => f.head ++ (f.payload ++ l)) hdrop'
          · rw [payloads_cons, List.length_append, ← Nat.add_assoc]
            exact hsum
      · rw [reassemble_inr (haround.trans hout)] at hrun
        exact absurd (Option.some.inj hrun).symm hr
      · have hne : cur ≠ 0 := by
          rintro rfl
          dsimp only at hlong
          omega
        have hnone := reassemble_stuck (show (Frame.mk rd st.wr cur st.data).wr < length from hwr)
          hne hstuck n
        rw [reassemble_inl (haround.trans hstuck), hnone] at hrun
        cases hrun

/-! ## The call -/

/-- The start of the loop. -/
def start (length : Nat) : Frame := ⟨0, 0, length, fun _ => 0⟩

/-- From the first fragment on. -/
theorem ends_of_cut (hcut : Cut buf n first frs rest)
    (hsum : (first ++ payloads frs).length = spuLength buf ∨
      (first ++ payloads frs).length < spuLength buf ∧ NoHead rest) (h0 : 0 < spuLength buf) :
    Ends buf (spuLength buf) (start n) (first ++ payloads frs) := by
  have hl := length_lt buf
  have hdrop : buf.drop 0 = first ++ (joined frs ++ rest) := hcut.buf
  rw [List.length_append] at hsum
  by_cases hn : n = 0
  · obtain rfl : first = [] := List.eq_nil_of_length_eq_zero (hcut.first.trans hn)
    subst hn
    exact ends_of_fits hl hcut.proper (show (start 0).cur = 0 from rfl) h0 hdrop
      (by simpa [start] using hsum)
  · have haround : around buf (spuLength buf) (start n) =
        place buf (spuLength buf) ⟨0, 0, first.length, fun _ => 0⟩ := by
      rw [around_copy (show (start n).wr < spuLength buf from h0) hn, hcut.first, start]
    refine ends_place hl (Nat.zero_le _) hdrop (by omega)
      (fun st' hcur' hwr' hlt' hdrop' => ?_) haround
    refine ends_of_fits hl hcut.proper hcur' hlt' hdrop' ?_
    rw [hwr', Nat.zero_add]
    exact hsum

theorem ready_of_cut (hcut : Cut buf n first frs rest)
    (hsum : (first ++ payloads frs).length = spuLength buf) (h0 : 0 < spuLength buf) :
    ∃ m k, reassemble buf (spuLength buf) m (start n) =
      some (.ready (Mem.copy (fun _ => 0) 0 (first ++ payloads frs)) k) := by
  have hl := length_lt buf
  have hdrop : buf.drop 0 = first ++ (joined frs ++ rest) := hcut.buf
  rw [List.length_append] at hsum
  have hready : ∃ m r, reassemble buf (spuLength buf) m (start n) = some r ∧
      ∃ k, r = .ready (Mem.copy (fun _ => 0) 0 (first ++ payloads frs)) k := by
    by_cases hn : n = 0
    · obtain rfl : first = [] := List.eq_nil_of_length_eq_zero (hcut.first.trans hn)
      subst hn
      exact ready_of_fits hl hcut.proper (show (start 0).cur = 0 from rfl) h0 hdrop
        (by simpa [start] using hsum)
    · have haround : around buf (spuLength buf) (start n) =
          place buf (spuLength buf) ⟨0, 0, first.length, fun _ => 0⟩ := by
        rw [around_copy (show (start n).wr < spuLength buf from h0) hn, hcut.first, start]
      refine place_next hl (Nat.zero_le _) hdrop (by omega) (fun hend k => ⟨k, ?_⟩)
        (fun st' hcur' hwr' hdata' hlt' hdrop' => ?_) haround
      · rw [List.eq_nil_of_length_eq_zero (l := payloads frs) (by omega), List.append_nil]
      · rw [Mem.copy_append, ← hdata', ← hwr']
        refine ready_of_fits hl hcut.proper hcur' hlt' hdrop' ?_
        rw [hwr', Nat.zero_add]
        exact hsum
  obtain ⟨m, r, hrun, k, rfl⟩ := hready
  exact ⟨m, k, hrun⟩

theorem cut_of_ends (hrun : reassemble buf (spuLength buf) n (start length) = some r)
    (hr : r ≠ .outside) (h0 : 0 < spuLength buf) : Fits buf length := by
  have hl := length_lt buf
  by_cases hzero : length = 0
  · subst hzero
    obtain ⟨frs, rest, hdrop, hproper, hsum⟩ := 
      fits_of_ends (show (start 0).cur = 0 from rfl) h0 hl hrun hr
    exact ⟨[], frs, rest, ⟨hdrop, rfl, hproper⟩, by simpa [start] using hsum⟩
  · have haround : around buf (spuLength buf) (start length) =
        place buf (spuLength buf) (start length) := around_copy h0 hzero
    cases n with
    | zero => cases hrun
    | succ n =>
      obtain ⟨hin, hle⟩ | hout | ⟨hlong, hstuck⟩ := place_cases buf (spuLength buf) (start length)
      · have htake : (buf.take length).length = length := by
          rw [List.length_take]
          exact min_eq_left (by simpa [start] using hin)
        rw [place_fits hin hle hl] at haround
        simp only [start, Nat.zero_add] at haround hle
        split at haround
        · rename_i hend
          refine ⟨buf.take length, [], buf.drop length, ⟨?_, htake, ?_⟩, .inl ?_⟩
          · exact (List.take_append_drop ..).symm
          · exact fun _ h => absurd h List.not_mem_nil
          · rw [payloads, List.flatMap_nil, List.append_nil, htake, hend]
        · rename_i hne
          rw [start, reassemble_inl haround] at hrun
          obtain ⟨frs, rest, hdrop, hproper, hsum⟩ :=
            fits_of_ends rfl (by dsimp only; omega) hl hrun hr
          refine ⟨buf.take length, frs, rest, ⟨?_, htake, hproper⟩, ?_⟩
          · rw [← hdrop, List.take_append_drop]
          · rw [List.length_append, htake]
            exact hsum
      · rw [reassemble_inr (haround.trans hout)] at hrun
        exact absurd (Option.some.inj hrun).symm hr
      · rw [reassemble_stuck (show (start length).wr < spuLength buf from h0) hzero hstuck] at hrun
        cases hrun

end

theorem getVobSpu_eq {buf : List Byte} (hextra : ¬ extraMark <+: buf) (hlong : ¬ buf <+: extraMark)
    (length n : Nat) : getVobSpu buf length n =
      if buf.length < 4 then some .outside
      else reassemble buf (spuLength buf) n (start length) := by
  obtain ⟨k, hk⟩ := compare_wrong hlong hextra
  rw [getVobSpu, hk]
  rfl

theorem reassemble_empty {buf : List Byte} {length : Nat} (h0 : spuLength buf = 0) (n : Nat) :
    reassemble buf (spuLength buf) (n + 1) (start length) = some .idle := by
  refine reassemble_inr ?_
  rw [around, if_neg (by rw [h0]; exact Nat.lt_irrefl 0)]

/-- **Reassembly**: the loop ends inside the string, with what came as the packet, exactly when
fragments that fit make up the packet or are followed by no header. -/
theorem right_iff (buf : List Byte) (length : Nat) : Right buf length ↔
    extraMark <+: buf ∨
      ¬ buf <+: extraMark ∧ 4 ≤ buf.length ∧ (spuLength buf = 0 ∨ Fits buf length) := by
  by_cases hextra : extraMark <+: buf
  · refine iff_of_true ⟨0, .extradata, ?_, trivial⟩ (.inl hextra)
    rw [getVobSpu, compare_mark hextra]
  rw [or_iff_right hextra]
  by_cases hlong : buf <+: extraMark
  · refine iff_of_false ?_ fun h => h.1 hlong
    rintro ⟨n, r, hrun, hgood⟩
    rw [getVobSpu, compare_short hlong hextra] at hrun
    cases Option.some.inj hrun
    exact hgood
  rw [and_iff_right hlong]
  have heq := getVobSpu_eq hextra hlong length
  constructor
  · rintro ⟨n, r, hrun, hgood⟩
    rw [heq] at hrun
    split at hrun
    · cases Option.some.inj hrun
      exact hgood.elim
    · rename_i h4
      refine ⟨not_lt.mp h4, or_iff_not_imp_left.mpr fun h0 => ?_⟩
      refine cut_of_ends hrun ?_ (Nat.pos_of_ne_zero h0)
      rintro rfl
      exact hgood
  · rintro ⟨h4, h0 | ⟨first, frs, rest, hcut, hsum⟩⟩
    · exact ⟨1, .idle, by rw [heq, if_neg (not_lt.mpr h4), reassemble_empty h0], trivial⟩
    · by_cases h0 : spuLength buf = 0
      · exact ⟨1, .idle, by rw [heq, if_neg (not_lt.mpr h4), reassemble_empty h0], trivial⟩
      · obtain ⟨n, r, hrun, hne, hbytes⟩ := ends_of_cut hcut hsum (Nat.pos_of_ne_zero h0)
        refine ⟨n, r, by rw [heq, if_neg (not_lt.mpr h4), hrun], ?_⟩
        cases r with
        | ready data rd => exact ⟨first, frs, rest, hcut, hbytes data rd rfl⟩
        | outside => exact hne rfl
        | wrongHead rd => trivial
        | idle => trivial
        | extradata => trivial

/-- **One byte too many**: the loop goes on for ever. -/
theorem not_right_long : ¬ Right [0x00, 0x04, 0x00, 0x00, 0x09] 5 := by
  rintro ⟨n, r, hrun, -⟩
  rw [getVobSpu_eq (by decide) (by decide), if_neg (by decide)] at hrun
  have hstuck : place [0x00, 0x04, 0x00, 0x00, 0x09] 4 (start 5) = .inl (start 5) :=
    if_neg (by decide)
  rw [show spuLength [0x00, 0x04, 0x00, 0x00, 0x09] = 4 by decide,
    reassemble_stuck (show (start 5).wr < 4 by decide) (by decide) hstuck] at hrun
  cases hrun

end VendorAmlogic.Amsub.Vob
