import Mathlib.Data.List.GetD
import VendorAmlogic.Lib.Bytes
import VendorAmlogic.Lib.Run
import VendorAmlogic.Lib.Incremental

/-!
# Captions from the decoder, in units of eight bytes

`aml_userdata_thread` of `am_userdata/aml/aml.c` once the format is known to be
H.264, DirecTV or AVS. A read is put behind what was left of the ones before it;
each unit of eight bytes comes in reversed order. A record starts with one of
three headers and is padded to whole units; other units are skipped. What is left
goes back to the front of the buffer, in the order it came in.

The loop does not run when the buffer is full to its last byte, and what is in it
is forgotten.
-/

namespace VendorAmlogic.Userdata.H264

open VendorAmlogic.Lib

inductive Format where
  | h264
  | directv
  | avs
  deriving DecidableEq

/-- `DMA_BLOCK_LEN`. -/
def dmaBlockLen : Nat := 8

/-- `sizeof(buf)`. -/
def bufSize : Nat := 5 * 1024

/-- `aml_swap_data`. -/
def swapData (d : List Byte) : List Byte :=
  if 8 ≤ d.length then (d.take 8).reverse ++ swapData (d.drop 8) else d
termination_by d.length
decreasing_by
  rw [List.length_drop]
  omega

/-- The three headers. -/
def isHeader (p : List Byte) : Bool :=
  (p.getD 0 0 == 0xb5 && p.getD 3 0 == 0x47 && p.getD 4 0 == 0x41 && p.getD 5 0 == 0x39 &&
    p.getD 6 0 == 0x34) ||
  (p.getD 0 0 == 0xb5 && p.getD 1 0 == 0x0 && p.getD 2 0 == 0x2f) ||
  (p.getD 0 0 == 0x47 && p.getD 1 0 == 0x41 && p.getD 2 0 == 0x39 && p.getD 3 0 == 0x34)

def minBytesValid (f : Format) (p : List Byte) : Nat :=
  match f with
  | .h264 => 11 + (p.getD 8 0 &&& 0x1F).toNat * 3
  | .directv => 8 + (p.getD 5 0 &&& 0x1F).toNat * 3
  | .avs => 8 + (p.getD 5 0 &&& 0x1F).toNat * 3

/-- `while (min_bytes_valid % DMA_BLOCK_LEN) min_bytes_valid++`. -/
def padded (n : Nat) : Nat := (n + 7) / dmaBlockLen * dmaBlockLen

/-- What `aml_h264_reorder_user_data` is called with. -/
def payload (f : Format) (p : List Byte) : List Byte :=
  match f with
  | .h264 => (p.take (minBytesValid f p)).drop 3
  | .directv => p.take (minBytesValid f p)
  | .avs => p.take (minBytesValid f p)

theorem le_padded (n : Nat) : n ≤ padded n := by
  unfold padded dmaBlockLen
  omega

theorem minBytesValid_pos (f : Format) (p : List Byte) : 0 < minBytesValid f p := by
  cases f <;> exact Nat.add_pos_left (by omega) _

/-- The loop over the `cnt` bytes at `p`: the payloads, and what is left. `cnt` is unsigned: where
the padding is not there it gets larger than the buffer, and the loop ends. -/
def scan (f : Format) (p : List Byte) : List (List Byte) × List Byte :=
  if p.length = 0 ∨ bufSize ≤ p.length then ([], [])
  else if p.length > dmaBlockLen then
    if isHeader p then
      if minBytesValid f p ≤ p.length then
        if p.length < padded (minBytesValid f p) then ([payload f p], [])
        else
          let r := scan f (p.drop (padded (minBytesValid f p)))
          (payload f p :: r.1, r.2)
      else ([], p)
    else scan f (p.drop dmaBlockLen)
  else ([], p)
termination_by p.length
decreasing_by
  · have := le_padded (minBytesValid f p)
    have := minBytesValid_pos f p
    rw [List.length_drop]
    omega
  · rw [List.length_drop, dmaBlockLen]
    omega

/-- A read, with `left` in the buffer: what is left, and the payloads. -/
def readStep (f : Format) (left read : List Byte) : List Byte × List (List Byte) :=
  if read = [] then (left, [])
  else
    let r := scan f (swapData (left ++ read))
    (swapData r.2, r.1)

/-! ## Units -/

section
variable {d e : List Byte}

theorem swapData_of_lt (h : d.length < 8) : swapData d = d := by
  rw [swapData, if_neg (by omega)]

theorem swapData_nil : swapData [] = [] :=
  swapData_of_lt (Nat.zero_lt_succ 7)

theorem swapData_block (h : d.length = 8) : swapData (d ++ e) = d.reverse ++ swapData e := by
  rw [swapData, if_pos (by rw [List.length_append]; omega), List.take_left' h, List.drop_left' h]

/-- The units of some data are those of a part and those of the rest. -/
theorem swapData_append (h : 8 ∣ d.length) : swapData (d ++ e) = swapData d ++ swapData e := by
  induction hn : d.length using Nat.strongRecOn generalizing d with
  | ind n ih =>
    by_cases h8 : 8 ≤ d.length
    · have htake : (d.take 8).length = 8 := by
        rw [List.length_take]
        omega
      have hdrop : (d.drop 8).length = d.length - 8 := List.length_drop
      have hih := ih (d.drop 8).length (by omega) (d := d.drop 8) (by omega) rfl
      calc swapData (d ++ e) = swapData (d.take 8 ++ (d.drop 8 ++ e)) := by
            rw [← List.append_assoc, List.take_append_drop]
        _ = (d.take 8).reverse ++ (swapData (d.drop 8) ++ swapData e) := by
            rw [swapData_block htake, hih]
        _ = swapData (d.take 8 ++ d.drop 8) ++ swapData e := by
            rw [swapData_block htake, List.append_assoc]
        _ = swapData d ++ swapData e := by rw [List.take_append_drop]
    · have hnil : d = [] := List.length_eq_zero_iff.mp (by omega)
      rw [hnil, swapData_nil, List.nil_append, List.nil_append]

theorem length_swapData (d : List Byte) : (swapData d).length = d.length := by
  induction hn : d.length using Nat.strongRecOn generalizing d with
  | ind n ih =>
    rw [swapData]
    split
    · rw [List.length_append, List.length_reverse, List.length_take,
        ih (d.drop 8).length (by rw [List.length_drop]; omega) _ rfl, List.length_drop]
      omega
    · exact hn

theorem swapData_swapData (d : List Byte) : swapData (swapData d) = d := by
  induction hn : d.length using Nat.strongRecOn generalizing d with
  | ind n ih =>
    by_cases h8 : 8 ≤ d.length
    · have htake : (d.take 8).reverse.length = 8 := by
        rw [List.length_reverse, List.length_take]
        omega
      have hih := ih (d.drop 8).length (by rw [List.length_drop]; omega) _ rfl
      rw [swapData.eq_def d, if_pos h8, swapData_block htake, hih, List.reverse_reverse,
        List.take_append_drop]
    · rw [swapData_of_lt (d := d) (by omega), swapData_of_lt (by omega)]

theorem swapData_flatten {cs : List (List Byte)} (h : ∀ c ∈ cs, 8 ∣ c.length) :
    (cs.map swapData).flatten = swapData cs.flatten := by
  induction cs with
  | nil => exact swapData_nil.symm
  | cons c cs ih =>
    rw [List.map_cons, List.flatten_cons, List.flatten_cons, swapData_append (h c List.mem_cons_self),
      ih fun x hx => h x (List.mem_cons_of_mem _ hx)]

end

/-! ## Records -/

/-- What is done with the front of the data: a record, or a unit that starts none. -/
def takeRecord (f : Format) (d : List Byte) : Taken (List Byte) Byte :=
  if d.length ≤ 8 then .more d
  else if isHeader d then
    if padded (minBytesValid f d) ≤ d.length then
      .item (d.take (padded (minBytesValid f d))) (d.drop (padded (minBytesValid f d)))
    else .more d
  else .item (d.take 8) (d.drop 8)

/-- The payloads of the records among some items. -/
def captions (f : Format) (items : List (List Byte)) : List (List Byte) :=
  items.filterMap fun it => if isHeader it then some (payload f it) else none

/-- The data is made of the items, records and other units, and of `k`: a record that is not
complete, or a unit of which nothing is known as long as it is the last one. -/
structure Cut (f : Format) (d : List Byte) (items : List (List Byte)) (k : List Byte) : Prop where
  bytes : items.flatten ++ k = d
  whole : ∀ it ∈ items, it.length = if isHeader it then padded (minBytesValid f it) else 8
  kept : k.length ≤ 8 ∨ (isHeader k = true ∧ k.length < minBytesValid f k)

section
variable {f : Format} {d e x k : List Byte} {items : List (List Byte)}

/-- The first bytes decide. -/
theorem isHeader_append (h : 8 ≤ d.length) (x : List Byte) : isHeader (d ++ x) = isHeader d := by
  have hget : ∀ i, i < 8 → (d ++ x).getD i 0 = d.getD i 0 := fun i hi =>
    List.getD_append d x 0 i (by omega)
  rw [isHeader, hget 0 (by omega), hget 1 (by omega), hget 2 (by omega), hget 3 (by omega),
    hget 4 (by omega), hget 5 (by omega), hget 6 (by omega), isHeader]

theorem minBytesValid_append (h : 8 < d.length) (x : List Byte) :
    minBytesValid f (d ++ x) = minBytesValid f d := by
  cases f with
  | h264 => rw [minBytesValid, List.getD_append d x 0 8 (by omega), minBytesValid]
  | directv => rw [minBytesValid, List.getD_append d x 0 5 (by omega), minBytesValid]
  | avs => rw [minBytesValid, List.getD_append d x 0 5 (by omega), minBytesValid]

theorem takeRecord_more (h : takeRecord f d = .more k) : k = d := by
  unfold takeRecord at h
  split at h
  · exact (Taken.more.inj h).symm
  · split at h
    · split at h
      · exact nomatch h
      · exact (Taken.more.inj h).symm
    · exact nomatch h

theorem incremental_takeRecord (f : Format) : Incremental (takeRecord f) fun _ => True where
  shorter := by
    intro d rest e h
    unfold takeRecord at h
    have hpos := Nat.lt_of_lt_of_le (minBytesValid_pos f d) (le_padded _)
    split at h
    · exact nomatch h
    · split at h
      · split at h
        · cases h
          rw [List.length_drop]
          omega
        · exact nomatch h
      · cases h
        rw [List.length_drop]
        omega
  item_append := by
    intro d rest e x _ h
    unfold takeRecord at h ⊢
    rw [List.length_append]
    split at h
    · exact nomatch h
    next h8 =>
      rw [if_neg (by omega), isHeader_append (by omega), minBytesValid_append (by omega)]
      split at h
      · rw [if_pos ‹_›]
        split at h
        · cases h
          rw [if_pos (by omega), List.take_append_of_le_length ‹_›, List.drop_append_of_le_length ‹_›]
        · exact nomatch h
      · cases h
        rw [if_neg ‹_›, List.take_append_of_le_length (by omega),
          List.drop_append_of_le_length (by omega)]
  more_append := by
    intro d k x _ h
    rw [takeRecord_more h]
    exact ⟨rfl, trivial⟩
  kept := by
    intro d k h
    obtain rfl := takeRecord_more h
    exact h
  total := by
    intro d x _ h
    unfold takeRecord at h
    split at h
    · exact nomatch h
    · split at h
      · split at h <;> exact nomatch h
      · exact nomatch h

theorem padded_le_iff {m n : Nat} (h : 8 ∣ n) : padded m ≤ n ↔ m ≤ n := by
  unfold padded dmaBlockLen
  omega

theorem dvd_padded (n : Nat) : 8 ∣ padded n := Dvd.intro_left _ rfl

/-- A record is taken with its header and its length. -/
theorem record_take (hd : isHeader d = true)
    (hle : padded (minBytesValid f d) ≤ d.length) :
    isHeader (d.take (padded (minBytesValid f d))) = true ∧
      minBytesValid f (d.take (padded (minBytesValid f d))) = minBytesValid f d ∧
      payload f (d.take (padded (minBytesValid f d))) = payload f d := by
  set n := padded (minBytesValid f d) with hn
  have hlen : (d.take n).length = n := by
    rw [List.length_take]
    omega
  have hm : minBytesValid f d ≤ n := le_padded _
  have hpos := minBytesValid_pos f d
  have hdvd := dvd_padded (minBytesValid f d)
  have hsplit := List.take_append_drop n d
  have hhead : isHeader (d.take n) = isHeader d := by
    rw [← isHeader_append (by omega) (d.drop n), hsplit]
  have hmin : minBytesValid f (d.take n) = minBytesValid f d := by
    cases f with
    | h264 =>
      have : 11 ≤ minBytesValid .h264 d := Nat.le_add_right _ _
      rw [← minBytesValid_append (by omega) (d.drop n), hsplit]
    | directv | avs =>
      simp only [minBytesValid, List.getD_eq_getElem?_getD,
        List.getElem?_take_of_lt (show 5 < n by omega)]
  refine ⟨hhead.trans hd, hmin, ?_⟩
  cases f <;> simp only [payload, hmin, List.take_take, Nat.min_eq_left hm]

theorem captions_record {it : List Byte} (h : isHeader it = true) :
    captions f (it :: items) = payload f it :: captions f items :=
  List.filterMap_cons_some (if_pos h)

theorem captions_other {it : List Byte} (h : ¬ isHeader it = true) :
    captions f (it :: items) = captions f items :=
  List.filterMap_cons_none (if_neg h)

/-- What is taken is a whole record, or a unit that is none. -/
theorem takeRecord_item (h : takeRecord f d = .item e x) :
    e ++ x = d ∧ 8 ∣ e.length ∧ e.length = if isHeader e then padded (minBytesValid f e) else 8 := by
  unfold takeRecord at h
  split at h
  · exact nomatch h
  next h8 =>
    split at h
    next hd =>
      split at h
      next hpad =>
        cases h
        obtain ⟨hh, hmin, -⟩ := record_take hd hpad
        have hlen : (d.take (padded (minBytesValid f d))).length = padded (minBytesValid f d) := by
          rw [List.length_take]
          omega
        rw [if_pos hh, hmin, hlen]
        exact ⟨List.take_append_drop _ _, dvd_padded _, rfl⟩
      · exact nomatch h
    next hd =>
      cases h
      have hlen : (d.take 8).length = 8 := by
        rw [List.length_take]
        omega
      have hh : ¬ isHeader (d.take 8) = true := by
        rwa [← isHeader_append (by omega) (d.drop 8), List.take_append_drop]
      rw [if_neg hh, hlen]
      exact ⟨List.take_append_drop _ _, dvd_refl 8, rfl⟩

/-- Draining whole units cuts them into records and other units. -/
theorem cut_of_drains (h : Drains (takeRecord f) d items k) (h8 : 8 ∣ d.length) :
    Cut f d items k ∧ 8 ∣ k.length := by
  induction h with
  | @item d rest k e es he h ih =>
    obtain ⟨hsplit, hdvd, hwhole⟩ := takeRecord_item he
    have hlen : d.length = e.length + rest.length := by rw [← hsplit, List.length_append]
    obtain ⟨hcut, hk⟩ := ih ((Nat.dvd_add_right hdvd).mp (hlen ▸ h8))
    refine ⟨⟨?_, ?_, hcut.kept⟩, hk⟩
    · rw [List.flatten_cons, List.append_assoc, hcut.bytes, hsplit]
    · intro it hit
      rcases List.mem_cons.mp hit with rfl | hit
      · exact hwhole
      · exact hcut.whole it hit
  | @more d k hm =>
    obtain rfl := takeRecord_more hm
    refine ⟨⟨rfl, nofun, ?_⟩, h8⟩
    unfold takeRecord at hm
    split at hm
    · exact .inl ‹_›
    · split at hm
      · split at hm
        · exact nomatch hm
        next hd hpad => exact .inr ⟨hd, not_le.mp fun hle => hpad ((padded_le_iff h8).2 hle)⟩
      · exact nomatch hm

/-- **The loop drains the data**, if it is whole units and does not fill the buffer. -/
theorem scan_eq (f : Format) (h8 : 8 ∣ d.length) (hfit : d.length < bufSize) :
    ∃ items k, Drains (takeRecord f) d items k ∧ scan f d = (captions f items, k) := by
  induction hn : d.length using Nat.strongRecOn generalizing d with
  | ind n ih =>
    rw [scan]
    by_cases h0 : d.length = 0
    · obtain rfl := List.length_eq_zero_iff.mp h0
      exact ⟨[], [], .more rfl, rfl⟩
    rw [if_neg (by omega), dmaBlockLen]
    by_cases hshort : d.length ≤ 8
    · rw [if_neg (by omega)]
      exact ⟨[], d, .more (if_pos hshort), rfl⟩
    rw [if_pos (by omega)]
    have hpos := minBytesValid_pos f d
    have hlepad := le_padded (minBytesValid f d)
    have hiff := padded_le_iff (m := minBytesValid f d) h8
    have hdvd := dvd_padded (minBytesValid f d)
    by_cases hhead : isHeader d = true
    · rw [if_pos hhead]
      by_cases hm : minBytesValid f d ≤ d.length
      · -- the record is complete
        have hpad := hiff.2 hm
        have hlen : (d.drop (padded (minBytesValid f d))).length = d.length - padded (minBytesValid f d) :=
          List.length_drop
        obtain ⟨items, k, hdr, hscan⟩ := ih _ (by omega) (d := d.drop (padded (minBytesValid f d)))
          (by omega) (by omega) rfl
        obtain ⟨hh, -, hpay⟩ := record_take hhead hpad
        have htake : takeRecord f d = .item (d.take (padded (minBytesValid f d)))
            (d.drop (padded (minBytesValid f d))) := by
          rw [takeRecord, if_neg hshort, if_pos hhead, if_pos hpad]
        rw [if_pos hm, if_neg (by omega), hscan]
        refine ⟨_, k, .item htake hdr, ?_⟩
        rw [captions_record hh, hpay]
      · rw [if_neg hm]
        have hmore : takeRecord f d = .more d := by
          rw [takeRecord, if_neg hshort, if_pos hhead, if_neg (by omega)]
        exact ⟨[], d, .more hmore, rfl⟩
    · -- no header: the unit is skipped
      have hlen : (d.drop 8).length = d.length - 8 := List.length_drop
      obtain ⟨items, k, hdr, hscan⟩ := ih _ (by omega) (d := d.drop 8) (by omega) (by omega) rfl
      have htake : takeRecord f d = .item (d.take 8) (d.drop 8) := by
        rw [takeRecord, if_neg hshort, if_neg hhead]
      have hh : ¬ isHeader (d.take 8) = true := by
        rwa [← isHeader_append (by rw [List.length_take]; omega) (d.drop 8), List.take_append_drop]
      rw [if_neg hhead, hscan]
      exact ⟨_, k, .item htake hdr, by rw [captions_other hh]⟩

end

/-! ## Reads -/

/-- The read is not larger than the free part of the buffer, and leaves some of it free. -/
def Unfilled (left read : List Byte) : Prop := left.length + read.length < bufSize

/-- The payloads delivered are the captions of the items, and what is left is `k`. -/
structure Delivers (f : Format) (cs : List (List Byte)) (items : List (List Byte)) (k : List Byte) :
    Prop where
  payloads : (run (readStep f) [] cs).2.flatten = captions f items
  left : (run (readStep f) [] cs).1 = swapData k

theorem captions_append (f : Format) (items items' : List (List Byte)) :
    captions f (items ++ items') = captions f items ++ captions f items' := List.filterMap_append

/-- A read of whole units drains what is in the buffer with it. -/
theorem readStep_drains {f : Format} {left c k : List Byte} {items : List (List Byte)}
    (h8 : 8 ∣ left.length) (hc : Unfilled left c ∧ 8 ∣ c.length)
    (hkept : takeRecord f (swapData left) = .more (swapData left))
    (hd : Drains (takeRecord f) (swapData left ++ swapData c) items k) :
    (readStep f left c).2 = captions f items ∧ swapData (readStep f left c).1 = k ∧
      8 ∣ (readStep f left c).1.length := by
  by_cases hnil : c = []
  · rw [hnil, swapData_nil, List.append_nil] at hd
    obtain ⟨rfl, rfl⟩ := hd.unique (.more hkept)
    rw [readStep, if_pos hnil]
    exact ⟨rfl, rfl, h8⟩
  · rw [← swapData_append h8] at hd
    have hlen : (swapData (left ++ c)).length = left.length + c.length := by
      rw [length_swapData, List.length_append]
    have hdvd : 8 ∣ (swapData (left ++ c)).length := hlen ▸ Nat.dvd_add h8 hc.2
    obtain ⟨items', k', hd', hscan⟩ := scan_eq f hdvd (lt_of_eq_of_lt hlen hc.1)
    obtain ⟨rfl, rfl⟩ := hd.unique hd'
    rw [readStep, if_neg hnil, hscan]
    refine ⟨rfl, swapData_swapData k, ?_⟩
    rw [length_swapData]
    exact (cut_of_drains hd hdvd).2

theorem dvd_length_flatten {cs : List (List Byte)} (h : ∀ c ∈ cs, 8 ∣ c.length) :
    8 ∣ cs.flatten.length := by
  rw [List.length_flatten]
  refine List.dvd_sum fun n hn => ?_
  obtain ⟨c, hc, rfl⟩ := List.mem_map.mp hn
  exact h c hc

/-- **Captions do not depend on the reads.** However the data is cut into reads of whole units, none
of which fills the buffer: the payloads are those of all complete records, and the rest is kept. -/
theorem captions_of_unfilled (f : Format) {cs cs' : List (List Byte)} (hflat : cs.flatten = cs'.flatten)
    (h8 : ∀ c ∈ cs, 8 ∣ c.length) (h8' : ∀ c ∈ cs', 8 ∣ c.length)
    (hu : Each Unfilled (readStep f) [] cs) (hu' : Each Unfilled (readStep f) [] cs') :
    ∃ items k, Cut f (swapData cs.flatten) items k ∧ Delivers f cs items k ∧ Delivers f cs' items k := by
  have hempty : takeRecord f (swapData []) = .more (swapData []) := by
    rw [swapData_nil]
    rfl
  have hrun : ∀ {cs : List (List Byte)}, (∀ c ∈ cs, 8 ∣ c.length) → Each Unfilled (readStep f) [] cs →
      ∃ items k, Drains (takeRecord f) (swapData cs.flatten) items k ∧ Delivers f cs items k := by
    intro cs h8 hu
    obtain ⟨items, k, hf⟩ := feeds_total (b := swapData []) (incremental_takeRecord f) fun _ _ => trivial
    obtain ⟨hpay, hleft⟩ := Feeds.run_eq (8 ∣ ·.length) swapData swapData (captions f)
      (incremental_takeRecord f) rfl (captions_append f) readStep_drains (dvd_zero 8) hempty
      (hu.and_forall_mem h8) hf
    have hd := hf.flatten (incremental_takeRecord f) hempty fun _ _ => trivial
    rw [swapData_nil, List.nil_append, swapData_flatten h8] at hd
    exact ⟨items, k, hd, hpay, by rw [← hleft, swapData_swapData]⟩
  obtain ⟨items, k, hd, hdel⟩ := hrun h8 hu
  obtain ⟨items', k', hd', hdel'⟩ := hrun h8' hu'
  rw [← hflat] at hd'
  obtain ⟨rfl, rfl⟩ := hd.unique hd'
  refine ⟨items, k, (cut_of_drains hd ?_).1, hdel, hdel'⟩
  rw [length_swapData]
  exact dvd_length_flatten h8

theorem length_scan_le (f : Format) (p : List Byte) : (scan f p).2.length ≤ p.length := by
  fun_induction scan f p with
  | case1 | case2 => exact Nat.zero_le _
  | case3 p _ _ _ _ _ r ih => exact ih.trans (List.length_drop ▸ Nat.sub_le _ _)
  | case4 | case6 => exact Nat.le_refl _
  | case5 p _ _ _ ih => exact ih.trans (List.length_drop ▸ Nat.sub_le _ _)

/-- Less data than the buffer holds cannot fill it. -/
theorem each_unfilled {f : Format} {cs : List (List Byte)} {left : List Byte}
    (h : left.length + cs.flatten.length < bufSize) : Each Unfilled (readStep f) left cs := by
  rw [List.length_flatten] at h
  refine each_of_sum List.length List.length (P := (· < bufSize)) (fun left c => ?_)
    fun n hn => Nat.lt_of_le_of_lt hn h
  unfold readStep
  split
  · exact Nat.le_add_right _ _
  · dsimp only
    have := length_scan_le f (swapData (left ++ c))
    rwa [length_swapData, List.length_append, ← length_swapData] at this

/-- An H.264 record without captions. -/
def emptyRecord : List Byte :=
  [0xb5, 0x00, 0x31, 0x47, 0x41, 0x39, 0x34, 0x03, 0x40, 0xff, 0xff, 0, 0, 0, 0, 0]

/-- The record as it comes in. -/
def rawRecord : List Byte :=
  [0x03, 0x34, 0x39, 0x41, 0x47, 0x31, 0x00, 0xb5, 0, 0, 0, 0, 0, 0xff, 0xff, 0x40]

/-- A record in one read, or in two. -/
theorem captions_rawRecord :
    ∃ items k, Cut .h264 (swapData [rawRecord].flatten) items k ∧ Delivers .h264 [rawRecord] items k ∧
      Delivers .h264 [rawRecord.take 8, rawRecord.drop 8] items k :=
  captions_of_unfilled .h264 rfl (by decide) (by decide) (each_unfilled (by decide))
    (each_unfilled (by decide))

/-! ## A full buffer -/

/-- A read that fills the buffer is forgotten, and so is what was left before it. -/
theorem readStep_full (f : Format) {left read : List Byte} (h : left.length + read.length = bufSize)
    (hr : read ≠ []) : readStep f left read = ([], []) := by
  have hlen : (swapData (left ++ read)).length = bufSize := by
    rw [length_swapData, List.length_append, h]
  rw [readStep, if_neg hr, scan, if_pos (.inr (Nat.le_of_eq hlen.symm))]
  exact Prod.ext swapData_nil rfl

/-- Data that starts with a complete record has captions. -/
theorem Cut.captions_ne_nil {f : Format} {d k : List Byte} {items : List (List Byte)} (h : Cut f d items k)
    (hd : isHeader d = true) (h8 : 8 < d.length) (hm : minBytesValid f d ≤ d.length) :
    captions f items ≠ [] := by
  cases items with
  | nil =>
    have hk : k = d := h.bytes
    subst hk
    have := h.kept
    omega
  | cons it items =>
    have hbytes := h.bytes
    have hwhole := h.whole it List.mem_cons_self
    rw [List.flatten_cons, List.append_assoc] at hbytes
    have hit : 8 ≤ it.length := by
      rw [hwhole]
      split
      · have := minBytesValid_pos f it
        unfold padded dmaBlockLen
        omega
      · exact Nat.le_refl 8
    have hhead : isHeader it = true := by rwa [← isHeader_append hit, hbytes]
    rw [captions_record hhead]
    exact List.cons_ne_nil _ _

/-- A buffer full of units, with a record at the front. -/
def fullRead : List Byte := rawRecord ++ List.replicate 5104 0

theorem swapData_fullRead :
    swapData fullRead = emptyRecord ++ swapData (List.replicate 5104 0) := by
  have hrecord : swapData rawRecord = emptyRecord := by simp [swapData, rawRecord, emptyRecord]
  rw [fullRead, swapData_append (by decide), hrecord]

/-- The record at the front of a read that fills the buffer is dropped. -/
theorem captions_fullRead :
    8 ∣ fullRead.length ∧ fullRead.length ≤ bufSize ∧
      ¬ ∃ items k, Cut .h264 (swapData [fullRead].flatten) items k ∧ Delivers .h264 [fullRead] items k := by
  have hlen : fullRead.length = bufSize := by
    rw [fullRead, List.length_append, List.length_replicate]
    rfl
  have hne : fullRead ≠ [] := List.ne_nil_of_length_pos (by rw [hlen]; decide)
  refine ⟨by rw [hlen]; decide, Nat.le_of_eq hlen, ?_⟩
  rintro ⟨items, k, hcut, hpay, -⟩
  have hnone : captions .h264 items = [] := by
    rw [← hpay, run_cons, readStep_full .h264 (by rw [hlen]; rfl) hne]
    rfl
  have hbig : 104 < (swapData fullRead).length := by
    rw [length_swapData, hlen]
    decide
  rw [List.flatten_singleton] at hcut
  refine hcut.captions_ne_nil ?_ (by omega) ?_ hnone
  · rw [swapData_fullRead, isHeader_append (by decide)]
    rfl
  · refine Nat.le_trans ?_ (Nat.le_of_lt hbig)
    rw [swapData_fullRead, minBytesValid_append (by decide)]
    decide

end VendorAmlogic.Userdata.H264
