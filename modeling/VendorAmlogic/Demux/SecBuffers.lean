import VendorAmlogic.Lib.Run
import VendorAmlogic.Demux.EmuSections
import VendorAmlogic.Demux.EmuStream
import VendorAmlogic.Demux.EmuProgress
import VendorAmlogic.Demux.DvrSections
import VendorAmlogic.Demux.DvrPes

/-!
# The buffers in which sections are put together

Both demultiplexers copy the payload of a packet behind what their channel has.
The buffer of the emulated one holds 4100 bytes: a section of at most 4098 bytes
fits, but `parse_payload` copies the whole payload before it takes the section
out, and what follows the section in its last packet may not fit any more. The
buffer of the DVR one holds 4096 bytes, two less than the longest section.
-/

namespace VendorAmlogic.Demux

open VendorAmlogic.Lib

/-! ## The copies of the DVR demultiplexer -/

/-- The copies of `check_sec`, and the bytes it takes; `none` where a copy leaves the buffer. What
the callback does is left out. -/
def checkCopy (c : DvrChannel) (data : List Byte) : Option (DvrChannel × Nat) :=
  if c.size + data.length < 3 then
    (c.buf.put c.size data).map fun buf => ({ c with buf := buf }, data.length)
  else (fillSec c data).map fun r => (if r.1.slen = r.1.size then { r.1 with size := 0 } else r.1, r.2)

/-- The copies of the loop of `parse_sec`. -/
def loopCopy : Nat → (first : Bool) → DvrChannel → List Byte → Option DvrChannel
  | 0, _, _, _ => none
  | fuel + 1, first, c, data =>
    if data ≠ [] ∧ (first ∨ data.getD 0 0 ≠ 0xFF) then
      (checkCopy c data).bind fun r => loopCopy fuel false r.1 (data.drop r.2)
    else some c

/-- The copies of `parse_sec`. -/
def parseCopy (c : DvrChannel) (data : List Byte) (pStart : Bool) : Option DvrChannel :=
  if pStart then
    let pointer := (data.getD 0 0).toNat
    let data := data.drop 1
    let r := if data.length ≥ pointer then (checkCopy c (data.take pointer)).map (·.1) else some c
    r.bind fun c => loopCopy (secRounds (data.drop pointer)) true { c with size := 0 } (data.drop pointer)
  else loopCopy (secRounds data) true c data

/-- A channel between two packets: it is empty, or has the header of a section and not all of it. -/
structure DvrChannel.Waits (c : DvrChannel) : Prop where
  size_le : c.size ≤ 4096
  partly : c.size = 0 ∨ (3 ≤ c.size ∧ c.size < c.slen)

/-- The section in progress is longer than the buffer, and `n` more bytes of it reach its end. -/
def DvrChannel.Overruns (c : DvrChannel) (n : Nat) : Prop :=
  c.size ≠ 0 ∧ 4096 < c.slen ∧ 4096 < c.size + n

section
variable {c c' : DvrChannel} {data : List Byte} {n : Nat}

/-- What `fillSec` takes: all, or all that the section needs. -/
theorem fillSec_takes (hw : c.Waits) (hl : 3 ≤ c.size + data.length)
    (h : fillSec c data = some (c', n)) :
    c'.size ≤ 4096 ∧ 3 ≤ c'.size ∧ c'.size ≤ c'.slen ∧ n ≤ data.length ∧
      (c'.size ≠ c'.slen → n = data.length) ∧ (data ≠ [] → 0 < n) ∧
      (c.size ≠ 0 → c'.size = c.size + min (c.slen - c.size) data.length) := by
  obtain ⟨⟨c1, n1⟩, h1, h⟩ := Option.bind_eq_some_iff.mp h
  obtain ⟨⟨c2, n2⟩, h2, h⟩ := Option.bind_eq_some_iff.mp h
  obtain ⟨rfl, rfl⟩ := Prod.mk.inj (Option.some.inj h)
  obtain ⟨ha1, hn1, h3⟩ := fillHeader_appends hw.size_le hl h1
  obtain ⟨ha2, hn2, hle⟩ := fillBody_appends h2
  have hs1 := ha1.size_eq
  have hs2 := ha2.size_eq
  have hlen2 : (data.drop n1).length = data.length - n1 := List.length_drop
  rw [List.length_take, Nat.min_eq_left hn1] at hs1
  rw [List.length_take, Nat.min_eq_left (by omega)] at hs2
  have hslen : c2.slen = c1.slen := by
    have hl1 := length_held ha1.size_le
    rw [slen_eq_of_held h3, slen_eq_of_held (by omega), ha2.held_eq]
    rw [List.getD_append c1.held _ 0 1 (by omega), List.getD_append c1.held _ 0 2 (by omega)]
  have hfirst : c.size ≠ 0 → c1 = c ∧ n1 = 0 := by
    intro h0
    obtain h0' | ⟨h3', -⟩ := hw.partly
    · exact absurd h0' h0
    · unfold fillHeader at h1
      rw [if_neg (by omega)] at h1
      obtain ⟨rfl, rfl⟩ := Prod.mk.inj (Option.some.inj h1)
      exact ⟨rfl, rfl⟩
  refine ⟨ha2.size_le, by omega, by omega, by omega, fun hne => by omega, fun hd => ?_, fun h0 => ?_⟩
  · have hpos := List.length_pos_iff.mpr hd
    by_cases h0 : c.size = 0
    · omega
    · obtain ⟨rfl, rfl⟩ := hfirst h0
      have := hw.partly
      omega
  · obtain ⟨rfl, rfl⟩ := hfirst h0
    omega

/-- **The copies of `check_sec` leave the buffer only if it overruns.** -/
theorem checkCopy_eq_none_iff (hw : c.Waits) (hlen : data.length ≤ 184) :
    checkCopy c data = none ↔ c.Overruns data.length := by
  unfold checkCopy
  have hle := hw.size_le
  by_cases h3 : c.size + data.length < 3
  · rw [if_pos h3, Option.map_eq_none_iff]
    obtain ⟨b, hb⟩ := exists_put c.buf (o := c.size) (d := data) (by omega)
    rw [hb]
    refine ⟨fun h => (nomatch h), fun ⟨_, _, h⟩ => ?_⟩
    omega
  · rw [if_neg h3, Option.map_eq_none_iff]
    have hh := length_held hle
    obtain h0 | ⟨h3', hlt⟩ := hw.partly
    · -- a new section has at most the bytes of the packet
      obtain ⟨c', hc'⟩ := exists_fillSec (x := c.held ++ data) data hle (by omega) rfl _ rfl
        (by omega) (by rw [List.length_append]; omega)
      rw [hc']
      exact ⟨fun h => (nomatch h), fun h => absurd h0 h.1⟩
    · have hslen : c.slen = secLen ((c.held ++ data).getD 1 0) ((c.held ++ data).getD 2 0) := by
        rw [slen_eq_of_held h3']
        simp only [List.getD_eq_getElem?_getD,
          List.getElem?_append_left (show 1 < c.held.length by omega),
          List.getElem?_append_left (show 2 < c.held.length by omega)]
      constructor
      · intro hnone
        by_contra hover
        obtain ⟨c', hc'⟩ := exists_fillSec (x := c.held ++ data) data hle (by omega) rfl _ hslen
          (by omega) (by
            rw [List.length_append]
            unfold DvrChannel.Overruns at hover
            omega)
        rw [hc'] at hnone
        exact nomatch hnone
      · rintro ⟨h0, hbig, hfull⟩
        cases hf : fillSec c data with
        | none => rfl
        | some r =>
          obtain ⟨hsz, -, -, -, -, -, heq⟩ := fillSec_takes hw (by omega) hf
          have := heq h0
          omega

/-- What `check_sec` leaves: it takes all it is given, or the channel is empty after it. -/
theorem checkCopy_waits (hw : c.Waits) (h : checkCopy c data = some (c', n)) :
    c'.Waits ∧ n ≤ data.length ∧ (n ≠ data.length → c'.size = 0) ∧ (data ≠ [] → 0 < n) := by
  unfold checkCopy at h
  split at h
  next h3 =>
    obtain ⟨b, -, h⟩ := Option.map_eq_some_iff.mp h
    obtain ⟨rfl, rfl⟩ := Prod.mk.inj h
    have h0 : c.size = 0 := by
      have := hw.partly
      omega
    exact ⟨⟨hw.size_le, .inl h0⟩, Nat.le_refl _, fun _ => h0, List.length_pos_iff.mpr⟩
  next h3 =>
    obtain ⟨⟨c1, n1⟩, hf, h⟩ := Option.map_eq_some_iff.mp h
    obtain ⟨rfl, rfl⟩ := Prod.mk.inj h
    obtain ⟨h1, h2, h3, h4, h5, h6, -⟩ := fillSec_takes hw (by omega) hf
    dsimp only at h1 h2 h3 h5 ⊢
    split
    · exact ⟨⟨Nat.zero_le _, .inl rfl⟩, h4, fun _ => rfl, h6⟩
    next hne =>
      refine ⟨⟨h1, .inr ⟨h2, by omega⟩⟩, h4, fun hn => ?_, h6⟩
      exact absurd (h5 (Ne.symm hne)) hn

/-- From an empty channel on, nothing is overrun. -/
theorem loopCopy_of_empty {fuel : Nat} {first : Bool} (hw : c.Waits) (h0 : data ≠ [] → c.size = 0)
    (hlen : data.length ≤ 184) (hfuel : data.length < fuel) :
    ∃ c', loopCopy fuel first c data = some c' := by
  induction fuel generalizing first c data with
  | zero => exact absurd hfuel (Nat.not_lt_zero _)
  | succ fuel ih =>
    unfold loopCopy
    split
    next hd =>
      obtain ⟨⟨c1, n1⟩, h1⟩ : ∃ r, checkCopy c data = some r := by
        refine Option.ne_none_iff_exists'.mp fun hnone => ?_
        exact ((checkCopy_eq_none_iff hw hlen).1 hnone).1 (h0 hd.1)
      obtain ⟨hw1, hn1, hall, hpos⟩ := checkCopy_waits hw h1
      have := hpos hd.1
      rw [h1, Option.bind_some]
      refine ih hw1 (fun hne => hall ?_) (by rw [List.length_drop]; omega) (by rw [List.length_drop]; omega)
      rintro rfl
      exact hne List.drop_length
    · exact ⟨c, rfl⟩

/-- The first round of the loop is the one that may overrun. -/
theorem loopCopy_eq_none_iff {fuel : Nat} (hw : c.Waits) (hd : data ≠ []) (hlen : data.length ≤ 184)
    (hfuel : data.length < fuel) :
    loopCopy fuel true c data = none ↔ c.Overruns data.length := by
  obtain ⟨fuel, rfl⟩ := Nat.exists_eq_add_one_of_ne_zero (show fuel ≠ 0 by omega)
  rw [← checkCopy_eq_none_iff hw hlen, loopCopy, if_pos ⟨hd, .inl rfl⟩]
  cases h1 : checkCopy c data with
  | none => simp only [Option.bind_none]
  | some r =>
    obtain ⟨hw1, hn1, hall, hpos⟩ := checkCopy_waits hw h1
    have := hpos hd
    obtain ⟨c', hc'⟩ : ∃ c', loopCopy fuel false r.1 (data.drop r.2) = some c' :=
      loopCopy_of_empty hw1 (fun hne => hall fun hn => hne (by rw [hn]; exact List.drop_length))
        (by rw [List.length_drop]; omega) (by rw [List.length_drop]; omega)
    rw [Option.bind_some, hc']
    simp only [reduceCtorEq]

/-- The bytes of a payload that go on with the section in progress. -/
def goingOn (data : List Byte) (pStart : Bool) : Nat :=
  if pStart then if (data.getD 0 0).toNat ≤ data.length - 1 then (data.getD 0 0).toNat else 0
  else data.length

/-- **The copies of `parse_sec` leave the buffer exactly if the section in progress overruns it.** -/
theorem parseCopy_eq_none_iff (hw : c.Waits) {pStart : Bool} (hd : data ≠ []) (hlen : data.length ≤ 184) :
    parseCopy c data pStart = none ↔ c.Overruns (goingOn data pStart) := by
  have hrounds : ∀ d : List Byte, d.length < secRounds d := fun d => by
    unfold secRounds
    omega
  cases pStart with
  | false => exact loopCopy_eq_none_iff hw hd hlen (hrounds data)
  | true =>
    have hlen1 : (data.drop 1).length = data.length - 1 := List.length_drop
    have hrest : ∀ c1 : DvrChannel, loopCopy (secRounds ((data.drop 1).drop (data.getD 0 0).toNat)) true
        { c1 with size := 0 } ((data.drop 1).drop (data.getD 0 0).toNat) ≠ none := by
      intro c1
      refine Option.ne_none_iff_exists'.mpr (loopCopy_of_empty ⟨Nat.zero_le _, .inl rfl⟩ (fun _ => rfl)
        ?_ (hrounds _))
      rw [List.length_drop]
      omega
    unfold parseCopy goingOn
    simp only [if_true, ge_iff_le, hlen1]
    split
    next hp =>
      have htake : ((data.drop 1).take (data.getD 0 0).toNat).length = (data.getD 0 0).toNat := by
        rw [List.length_take]
        omega
      have hiff : checkCopy c ((data.drop 1).take (data.getD 0 0).toNat) = none ↔ c.Overruns _ :=
        checkCopy_eq_none_iff hw (by omega)
      rw [htake] at hiff
      rw [← hiff]
      cases h1 : checkCopy c ((data.drop 1).take (data.getD 0 0).toNat) with
      | none => simp only [Option.map_none, Option.bind_none]
      | some r => simpa only [Option.map_some, Option.bind_some, reduceCtorEq, iff_false] using hrest r.1
    · refine ⟨fun h => absurd h (hrest c), fun ⟨_, _, h⟩ => ?_⟩
      have := hw.size_le
      omega

end

/-! ## What the copies say about `parse_sec` -/

/-- The channels have the same bytes. -/
structure SameBuf (c c' : DvrChannel) : Prop where
  buf : c'.buf = c.buf
  size : c'.size = c.size

theorem SameBuf.waits {c c' : DvrChannel} (h : SameBuf c c') (hw : c.Waits) : c'.Waits := by
  have hslen : c'.slen = c.slen := by rw [DvrChannel.slen, h.buf, DvrChannel.slen]
  refine ⟨?_, ?_⟩
  · rw [h.size]
    exact hw.size_le
  · rw [h.size, hslen]
    exact hw.partly

/-- The copies look at the bytes only. -/
theorem SameBuf.fillSec {c d c' : DvrChannel} {data : List Byte} {n : Nat} (h : SameBuf c d)
    (hf : Demux.fillSec c data = some (c', n)) :
    ∃ d', Demux.fillSec d data = some (d', n) ∧ SameBuf c' d' := by
  obtain ⟨hb, hs⟩ := h
  obtain ⟨⟨c1, n1⟩, h1, hf⟩ := Option.bind_eq_some_iff.mp hf
  obtain ⟨⟨c2, n2⟩, h2, hf⟩ := Option.bind_eq_some_iff.mp hf
  obtain ⟨rfl, rfl⟩ := Prod.mk.inj (Option.some.inj hf)
  obtain ⟨d1, hd1, hb1, hs1⟩ : ∃ d1, fillHeader d data = some (d1, n1) ∧ SameBuf c1 d1 := by
    unfold fillHeader at h1 ⊢
    rw [hs, hb]
    split at h1
    · obtain ⟨b, hput, h1⟩ := Option.bind_eq_some_iff.mp h1
      obtain ⟨rfl, rfl⟩ := Prod.mk.inj (Option.some.inj h1)
      rw [if_pos ‹_›]
      dsimp only
      rw [hput]
      exact ⟨_, rfl, rfl, rfl⟩
    · obtain ⟨rfl, rfl⟩ := Prod.mk.inj (Option.some.inj h1)
      rw [if_neg ‹_›]
      exact ⟨_, rfl, hb, hs⟩
  obtain ⟨d2, hd2, hsame⟩ : ∃ d2, fillBody d1 (data.drop n1) = some (d2, n2) ∧ SameBuf c2 d2 := by
    have hslen : d1.slen = c1.slen := by rw [DvrChannel.slen, hb1, DvrChannel.slen]
    unfold fillBody at h2 ⊢
    rw [hslen, hs1, hb1]
    split at h2
    · cases h2
    · obtain ⟨b, hput, h2⟩ := Option.bind_eq_some_iff.mp h2
      obtain ⟨rfl, rfl⟩ := Prod.mk.inj (Option.some.inj h2)
      rw [if_neg ‹_›]
      dsimp only
      rw [hput]
      exact ⟨_, rfl, rfl, rfl⟩
  refine ⟨d2, ?_, hsame⟩
  unfold Demux.fillSec
  rw [hd1]
  dsimp only [Option.bind_eq_bind, Option.bind_some]
  rw [hd2]
  rfl

theorem SameBuf.symm {c d : DvrChannel} (h : SameBuf c d) : SameBuf d c := ⟨h.buf.symm, h.size.symm⟩

theorem SameBuf.trans {c d e : DvrChannel} (h : SameBuf c d) (h' : SameBuf d e) : SameBuf c e :=
  ⟨h'.buf.trans h.buf, h'.size.trans h.size⟩

theorem SameBuf.checkCopy {c d c' : DvrChannel} {data : List Byte} {n : Nat} (h : SameBuf c d)
    (hc : Demux.checkCopy c data = some (c', n)) :
    ∃ d', Demux.checkCopy d data = some (d', n) ∧ SameBuf c' d' := by
  unfold Demux.checkCopy at hc ⊢
  rw [h.size]
  split at hc
  · obtain ⟨b, hput, hc⟩ := Option.map_eq_some_iff.mp hc
    obtain ⟨rfl, rfl⟩ := Prod.mk.inj hc
    rw [if_pos ‹_›, h.buf, hput]
    exact ⟨_, rfl, rfl, rfl⟩
  · obtain ⟨⟨c1, n1⟩, hf, hc⟩ := Option.map_eq_some_iff.mp hc
    obtain ⟨rfl, rfl⟩ := Prod.mk.inj hc
    obtain ⟨d1, hd1, hb1, hs1⟩ := h.fillSec hf
    have hslen : d1.slen = c1.slen := by rw [DvrChannel.slen, hb1, DvrChannel.slen]
    rw [if_neg ‹_›, hd1]
    refine ⟨_, rfl, ?_⟩
    dsimp only
    rw [hslen, hs1]
    split
    · exact ⟨hb1, rfl⟩
    · exact ⟨hb1, hs1⟩

section
variable {s : St} {ch : Fin 32} {c : DvrChannel}

/-- Every channel is between two packets. -/
def AllWait (d : Dev) : Prop := ∀ ch, (d.dvrChannels ch).Waits

theorem AllWait.setChan {d : Dev} (h : AllWait d) (hc : c.Waits) : AllWait (d.setChan ch c) := by
  intro i
  rw [Dev.dvrChannels_setChan]
  by_cases hi : i = ch
  · rw [hi, Function.update_self]
    exact hc
  · rw [Function.update_of_ne hi]
    exact h i

theorem kept_runOps {d d' : Dev} {ops : List Op} (h : runOps d ops = some d') : Kept d d' := by
  induction ops generalizing d with
  | nil =>
    cases h
    exact kept_of_chans rfl
  | cons op ops ih =>
    obtain ⟨⟨d1, ret⟩, h1, h2⟩ := Option.bind_eq_some_iff.mp h
    exact (kept_call h1).trans (ih h2)

theorem kept_dataCb {s' : St} (h : dataCb s = some s') : Kept s.dev s'.dev := by
  unfold dataCb at h
  split at h
  · cases h
    exact kept_of_chans rfl
  · obtain ⟨d, hd, rfl⟩ := Option.map_eq_some_iff.mp h
    exact kept_runOps hd

theorem kept_dispatch (pid : Nat) :
    (dispatch pid s ch).Meets (fun _ => True) (fun t => Kept s.dev t.dev) := by
  unfold dispatch
  dsimp only
  split
  · exact Trace.meets_emit trivial (kept_of_chans rfl)
  · split
    · exact Trace.meets_stop
    · refine Trace.Meets.bind (Q := fun t : St => t = s) (Trace.meets_emit trivial rfl) fun t ht => ?_
      rw [ht]
      exact Trace.meets_ofOption fun _ h => kept_dataCb h

theorem Kept.allWait {d d' : Dev} (h : Kept d d') (hw : AllWait d) : AllWait d' :=
  fun i => SameBuf.waits ⟨(h i).buf, (h i).size⟩ (hw i)

theorem Kept.sameBuf {d d' : Dev} (h : Kept d d') (ch : Fin 32) :
    SameBuf (d.dvrChannels ch) (d'.dvrChannels ch) := ⟨(h ch).buf, (h ch).size⟩

/-- `check_sec` makes the copies of `checkCopy`, whatever the callback does. -/
theorem checkSec_copies (hw : AllWait s.dev) (pid : Nat) (data : List Byte) :
    (checkSec pid s ch data).Meets (fun _ => True) fun r => AllWait r.1.dev ∧
      ∃ c, checkCopy (s.chan ch) data = some (c, r.2) ∧ SameBuf c (r.1.chan ch) := by
  have hwait : ∀ {c n}, checkCopy (s.chan ch) data = some (c, n) → c.Waits := fun h =>
    (checkCopy_waits (hw ch) h).1
  unfold checkSec
  dsimp only
  split
  next h3 =>
    refine (Trace.meets_ofOption fun _ h => h).bind fun b hb => ?_
    have hcopy : checkCopy (s.chan ch) data = some ({ s.chan ch with buf := b }, data.length) := by
      rw [checkCopy, if_pos h3, hb]
      rfl
    refine Trace.meets_pure ⟨hw.setChan (hwait hcopy), _, hcopy, ?_⟩
    rw [chan_setChan]
    exact ⟨rfl, rfl⟩
  next h3 =>
    refine (Trace.meets_ofOption fun _ h => h).bind fun ⟨c, ret⟩ hc => ?_
    have hcopy : checkCopy (s.chan ch) data =
        some (if c.slen = c.size then { c with size := 0 } else c, ret) := by
      rw [checkCopy, if_neg h3, hc]
      rfl
    dsimp only
    split
    next heq =>
      rw [if_pos heq] at hcopy
      refine (kept_dispatch pid).bind fun t hk => ?_
      have hsame : SameBuf c (t.chan ch) := by
        have h := hk.sameBuf ch
        rwa [show (s.setChan ch c).dev.dvrChannels ch = c from chan_setChan s ch c] at h
      have hclear : SameBuf { c with size := 0 } ((t.clear ch).chan ch) := by
        rw [St.clear, chan_setChan]
        exact ⟨hsame.buf, rfl⟩
      refine Trace.meets_pure ⟨?_, _, hcopy, hclear⟩
      -- the other channels are as they were before the section
      intro i
      by_cases hi : i = ch
      · rw [hi]
        exact hclear.waits (hwait hcopy)
      · change (Function.update t.dev.dvrChannels ch _ i).Waits
        rw [Function.update_of_ne hi]
        refine (hk.sameBuf i).waits ?_
        change (Function.update s.dev.dvrChannels ch c i).Waits
        rw [Function.update_of_ne hi]
        exact hw i
    next hne =>
      rw [if_neg hne] at hcopy
      refine Trace.meets_pure ⟨hw.setChan (hwait hcopy), _, hcopy, ?_⟩
      rw [chan_setChan]
      exact ⟨rfl, rfl⟩

theorem secLoop_copies (pid fuel : Nat) (first : Bool) (hw : AllWait s.dev) (data : List Byte)
    (hc : SameBuf (s.chan ch) c) :
    (secLoop pid ch fuel first s data).Meets (fun _ => True) fun t => AllWait t.dev ∧
      ∃ c', loopCopy fuel first c data = some c' ∧ SameBuf c' (t.chan ch) := by
  induction fuel generalizing first s data c with
  | zero => exact Trace.meets_stop
  | succ fuel ih =>
    unfold secLoop loopCopy
    split
    · refine (checkSec_copies hw pid data).bind fun r hr => ?_
      obtain ⟨hw', c1, hcopy, hsame⟩ := hr
      obtain ⟨d1, hd1, hsame1⟩ := hc.checkCopy hcopy
      rw [hd1, Option.bind_some]
      exact ih false hw' _ (hsame.symm.trans hsame1)
    · exact Trace.meets_pure ⟨hw, c, rfl, hc.symm⟩

theorem AllWait.clear (hw : AllWait s.dev) : AllWait (s.clear ch).dev :=
  hw.setChan ⟨Nat.zero_le _, .inl rfl⟩

/-- **Where `parse_sec` comes to its end, its copies are in the buffer.** -/
theorem parseSec_copies (hw : AllWait s.dev) (pid : Nat) (data : List Byte) (pStart : Bool) :
    (parseSec pid s ch data pStart).Meets (fun _ => True) fun t => AllWait t.dev ∧
      ∃ c, parseCopy (s.chan ch) data pStart = some c ∧ SameBuf c (t.chan ch) := by
  have hclear : ∀ {t : St} {c1 : DvrChannel}, SameBuf c1 (t.chan ch) →
      SameBuf ((t.clear ch).chan ch) { c1 with size := 0 } := by
    intro t c1 h
    rw [St.clear, chan_setChan]
    exact ⟨h.buf.symm, rfl⟩
  unfold parseSec parseCopy
  dsimp only
  split
  · split
    · refine (checkSec_copies hw pid _).bind fun r hr => ?_
      obtain ⟨hw', c1, hcopy, hsame⟩ := hr
      rw [Trace.pure_bind, hcopy]
      exact secLoop_copies pid _ true hw'.clear _ (hclear hsame)
    · rw [Trace.pure_bind]
      exact secLoop_copies pid _ true hw.clear _ (hclear ⟨rfl, rfl⟩)
  · exact secLoop_copies pid _ true hw _ ⟨rfl, rfl⟩

theorem AllWait.parsePes (hw : AllWait s.dev) :
    (Demux.parsePes s ch).Meets (fun _ => True) (AllWait ·.dev) := by
  unfold Demux.parsePes
  split
  · exact Trace.meets_stop
  · split
    · exact Trace.meets_stop
    · exact Trace.meets_ofOption fun _ h => (kept_dataCb h).allWait hw

theorem AllWait.packetStep (hw : AllWait s.dev) (buf : List Byte) :
    (Demux.packetStep s buf).Meets (fun _ => True) (AllWait ·.dev) := by
  have hcc : ∀ {t : St} {ch : Fin 32} (cc : Int), AllWait t.dev →
      AllWait (t.setChan ch { t.chan ch with cc := cc }).dev := fun {t ch} _ h =>
    h.setChan ⟨(h ch).size_le, (h ch).partly⟩
  suffices h : (parseTsPacket s buf).Meets (fun _ => True) (AllWait ·.1.dev) from
    h.bind fun _ h => Trace.meets_pure h
  unfold parseTsPacket
  dsimp only
  split
  · exact Trace.meets_pure hw
  · split
    · split
      · exact Trace.meets_pure hw
      · split
        · split
          · exact (parseSec_copies hw _ _ _).bind fun _ h => Trace.meets_pure (hcc _ h.1)
          · exact hw.parsePes.bind fun _ h => Trace.meets_pure (hcc _ h)
        · rw [Trace.pure_bind]
          exact Trace.meets_pure (hcc _ hw)
    · exact Trace.meets_pure hw

theorem AllWait.inputStep (hw : AllWait s.dev) (i : Input) :
    (Demux.inputStep s i).Meets (fun _ => True) (AllWait ·.dev) := by
  cases i with
  | call op =>
    refine Trace.meets_ofOption fun s' h => ?_
    obtain ⟨⟨d, ret⟩, hr, rfl⟩ := Option.map_eq_some_iff.mp h
    exact (kept_call hr).allWait hw
  | packet buf => exact hw.packetStep buf

end

/-! ## Runs of the DVR demultiplexer -/

/-- `payload_unit_start_indicator` of the packet in `buf`. -/
def unitStart (buf : List Byte) : Bool :=
  (buf.drop ((buf.findIdx? (· == 0x47)).getD buf.length)).getD 1 0 &&& 0x40 ≠ 0

/-- The copies for the packet in `buf` are in the buffer of its section channel. -/
def CopiesFit (s : St) (buf : List Byte) : Prop :=
  ∀ pid payload ch, carriedBy buf = some (pid, payload) → findPid s.dev pid = some ch →
    (s.chan ch).isSec = true → parseCopy (s.chan ch) payload (unitStart buf) ≠ none

/-- The packet in `buf` does not bring byte 4097 of a section. -/
def NoOverrun (s : St) (buf : List Byte) : Prop :=
  ∀ pid payload ch, carriedBy buf = some (pid, payload) → findPid s.dev pid = some ch →
    (s.chan ch).isSec = true → ¬ (s.chan ch).Overruns (goingOn payload (unitStart buf))

theorem length_tsPayload (p : List Byte) : (tsPayload p).length ≤ 184 := by
  unfold tsPayload
  dsimp only
  split
  · simp only [List.length_drop, List.length_take]
    omega
  · simp only [List.length_drop, List.length_take]
    omega

theorem payload_of_carriedBy {buf payload : List Byte} {pid : Nat}
    (h : carriedBy buf = some (pid, payload)) : payload ≠ [] ∧ payload.length ≤ 184 := by
  unfold carriedBy at h
  dsimp only at h
  split at h
  next hp =>
    obtain ⟨rfl, rfl⟩ := Prod.mk.inj (Option.some.inj h)
    exact ⟨hp.2.2.2.2.2, length_tsPayload _⟩
  · exact nomatch h

theorem copiesFit_iff {s : St} (hw : AllWait s.dev) (buf : List Byte) :
    CopiesFit s buf ↔ NoOverrun s buf := by
  refine forall₃_congr fun pid payload ch => ?_
  refine imp_congr_right fun hc => imp_congr_right fun _ => imp_congr_right fun _ => ?_
  obtain ⟨hne, hlen⟩ := payload_of_carriedBy hc
  exact not_congr (parseCopy_eq_none_iff (hw ch) hne hlen)

/-- In every run of the DVR demultiplexer, a copy leaves the buffer of a channel exactly where a
packet brings byte 4097 of a section. -/
theorem copiesFit_run_iff (env : List (List Op)) (ins : List Input) :
    Each (AtPacket CopiesFit) dvrStep (some ⟨dvrOpen, env⟩) ins ↔
      Each (AtPacket NoOverrun) dvrStep (some ⟨dvrOpen, env⟩) ins := by
  refine each_dvrStep_iff (P := AllWait) (fun hw i => hw.inputStep i)
    (fun _ => ⟨Nat.zero_le _, .inl rfl⟩) fun hw buf => copiesFit_iff hw buf

/-! ## The emulated demultiplexer -/

namespace Emu

/-- The packet reaches `parse_payload`. -/
def Carries (b : List Byte) : Prop :=
  tsPid b ≠ 0x1FFF ∧ b.getD 1 0 &&& 0x80 = 0 ∧ b.getD 3 0 &&& 0x10 ≠ 0 ∧ tsPayload b ≠ [] ∧
    b.getD 3 0 &&& 0xC0 = 0

/-- The copy of `parse_payload` ends in the buffer. The moves to the front end before it does. -/
def PayloadFits (c : Channel) (n : Nat) (start : Bool) : Prop :=
  start = true ∨ c.stage ≠ .start → (if start then 0 else c.bytes) + n ≤ filterBufSize

/-- `n` bytes more are too many for the buffer: they complete the section in progress and bring more
behind it than there is room for, or there is no room behind a section that a full ring has left. -/
def Channel.Overfills (c : Channel) (n : Nat) : Prop :=
  let len := secLen (c.buf 1) (c.buf 2)
  c.stage = .data ∧ c.type = .sec ∧
    ((c.bytes < len ∧ len ≤ c.bytes + n ∧ filterBufSize < len + (n - (len - c.bytes))) ∨
      (len ≤ c.bytes ∧ filterBufSize < c.bytes + n))

/-- A channel between two packets: only sections are kept long. -/
def Channel.AtRest (c : Channel) : Prop := (c.stage = .data ∧ c.type = .sec) ∨ c.bytes < 256

section
variable {p p' : TSParser} {c c' : Channel} {data : List Byte} {start : Bool}

theorem payloadFits_iff (h : c.AtRest) {n : Nat} (hn : n ≤ 184) :
    PayloadFits c n start ↔ ¬ (start = false ∧ c.Overfills n) := by
  have hlen := secLen_le (c.buf 1) (c.buf 2)
  unfold PayloadFits Channel.Overfills filterBufSize
  cases start with
  | true => simp; omega
  | false =>
    simp only [Bool.false_eq_true, false_or, if_false, true_and, not_and, not_or, not_lt]
    constructor
    · intro hfit hs ht
      have := hfit (by rw [hs]; exact nofun)
      omega
    · intro hover hs
      rcases h with ⟨hd, ht⟩ | hb
      · have := hover hd ht
        omega
      · omega

theorem retry_atRest {fuel : Nat} (hs : c.stage = .data ∨ c.stage = .finish)
    (h : retry fuel p c = some (p', c')) : c'.AtRest := by
  induction fuel generalizing p c with
  | zero => exact nomatch h
  | succ fuel ih =>
    unfold retry at h
    split at h
    next hdata =>
      split at h
      · cases h
        exact .inr (Nat.zero_lt_succ _)
      next hsec =>
        have hc : c.AtRest := .inl ⟨hdata, hsec⟩
        split at h
        · cases h
          exact hc
        · split at h
          · cases h
            exact .inr (Nat.zero_lt_succ _)
          · split at h
            · cases h
              exact hc
            · dsimp only at h
              split at h
              · cases h
                exact hc
              · split at h
                · cases h
                  exact hc
                · split at h
                  · exact ih (c := c.dropFirst _) (.inl hdata) h
                  · cases h
                    exact .inl ⟨hdata, hsec⟩
    next hdata =>
      rw [if_pos (hs.resolve_left hdata)] at h
      cases h
      exact .inr (Nat.zero_lt_succ _)

theorem parseData_atRest (hs : c.stage = .data ∨ c.stage = .finish)
    (h : parseData p c = some (p', c')) : c'.AtRest := by
  unfold parseData at h
  split at h
  · cases h
    exact .inr (by omega)
  · exact retry_atRest hs h

theorem parseStages_atRest (hs : c.stage ≠ .start) (h : parseStages p c = some (p', c')) :
    c'.AtRest := by
  have hpts : ∀ c : Channel, c.stage = .pts → parseStages p c = some (p', c') → c'.AtRest := by
    intro c hc h
    rw [parseStages_of_pts hc] at h
    split at h
    · cases h
      exact .inr (by omega)
    · obtain ⟨⟨p1, c1⟩, -, h⟩ := Option.bind_eq_some_iff.mp h
      exact parseData_atRest (c := { c1 with stage := .data }) (.inl rfl) h
  have hptr : ∀ c : Channel, (if c.bytes < (c.buf 0).toNat + 1 then some (p, c) else
      parseData p { c.dropFirst ((c.buf 0).toNat + 1) with stage := .data }) = some (p', c') →
      c'.AtRest := by
    intro c h
    split at h
    · cases h
      have := (c.buf 0).isLt
      exact .inr (by omega)
    · exact parseData_atRest (.inl rfl) h
  cases hst : c.stage with
  | start => exact absurd hst hs
  | header =>
    by_cases hpes : c.buf 0 = 0 ∧ c.buf 1 = 0 ∧ c.buf 2 = 1
    · rw [parseStages_of_pes hst hpes] at h
      exact hpts { c with type := .pes, stage := .pts } rfl h
    · rw [parseStages_of_ptr hst hpes] at h
      exact hptr { c with type := .sec, stage := .ptr } h
  | pts => exact hpts c hst h
  | ptr =>
    have hd : parseStages p c = if c.bytes < (c.buf 0).toNat + 1 then some (p, c) else
        parseData p { c.dropFirst ((c.buf 0).toNat + 1) with stage := .data } := by
      simp [parseStages, hst]
    exact hptr c (hd.symm.trans h)
  | data =>
    rw [parseStages_of_data hst] at h
    exact parseData_atRest (.inl hst) h
  | finish =>
    have hd : parseStages p c = parseData p c := by simp [parseStages, hst]
    rw [hd] at h
    exact parseData_atRest (.inr hst) h

theorem parsePayload_atRest (hc : c.AtRest) (h : parsePayload p c data start = some (p', c')) :
    c'.AtRest := by
  cases start with
  | true =>
    by_cases hfit : data.length ≤ filterBufSize
    · rw [parsePayload_start hfit] at h
      split at h
      · cases h
        exact .inr (by omega)
      · exact parseStages_atRest (c := c.restart.append data) nofun h
    · simp [parsePayload, hfit] at h
  | false =>
    by_cases hs : c.stage = .start
    · simp only [parsePayload, hs, Bool.not_false, and_self, if_true, Option.some.injEq,
        Prod.mk.injEq] at h
      obtain ⟨-, rfl⟩ := h
      exact hc
    · by_cases hfit : c.bytes + data.length ≤ filterBufSize
      · rw [parsePayload_cont hs hfit] at h
        split at h
        · cases h
          exact .inr (by omega)
        · exact parseStages_atRest (c := c.append data) hs h
      · simp [parsePayload, hs, hfit] at h

def AllRest (p : TSParser) : Prop := ∀ c ∈ p.channels, c.AtRest

theorem atRest_chanReset (c : Channel) : (chanReset c).AtRest := .inr (Nat.zero_lt_succ _)

theorem AllRest.chanOf (h : AllRest p) (fresh : Channel) (pid : Nat) : (Emu.chanOf fresh p pid).AtRest := by
  unfold Emu.chanOf
  cases hf : p.channels.find? (·.pid == pid) with
  | none => exact atRest_chanReset _
  | some c => exact h c (List.mem_of_find?_eq_some hf)

theorem AllRest.getChan (h : AllRest p) (fresh : Channel) (pid : Nat) :
    AllRest (parserGetChan fresh p pid).1 := by
  unfold parserGetChan
  split
  · exact h
  · intro c hc
    rcases List.mem_cons.mp hc with rfl | hc
    · exact atRest_chanReset _
    · exact h c hc

theorem AllRest.parsePacket (h : AllRest p) {fresh : Channel} {b : List Byte}
    (hp : Emu.parsePacket fresh p b = some p') : AllRest p' := by
  have hset : ∀ {q : TSParser} {i : Nat} {c : Channel}, AllRest q → c.AtRest →
      AllRest { q with channels := q.channels.set i c } := by
    intro q i c hq hc d hd
    rcases List.mem_or_eq_of_mem_set hd with hd | rfl
    · exact hq d hd
    · exact hc
  unfold Emu.parsePacket at hp
  dsimp only at hp
  split at hp
  · cases hp
    exact h
  · split at hp
    · cases hp
      exact h
    · have hq := h.getChan fresh (tsPid b)
      generalize hget : parserGetChan fresh p (tsPid b) = r at hp hq
      obtain ⟨q, i⟩ := r
      dsimp only at hp hq
      split at hp
      · exact nomatch hp
      next c hc =>
        have hrest := hq c (List.mem_of_getElem? hc)
        split at hp
        · obtain ⟨⟨q', c'⟩, hpay, hp⟩ := Option.bind_eq_some_iff.mp hp
          cases hp
          have hfr := parsePayload_frame hpay
          refine hset (fun d hd => hq d ?_) (parsePayload_atRest ?_ hpay)
          · rwa [hfr.channels] at hd
          · exact hrest
        · cases hp
          exact hset hq hrest

/-! ## Runs of the emulated demultiplexer -/

/-- What happens to the parser: a packet, new filters or readers of them, or a new file. -/
inductive PacketInput where
  | packet (b : List Byte)
  | filters (fs : List Filter)
  | reset

def packetStep (fresh : Channel) (s : Option TSParser) (i : PacketInput) : Option TSParser × Unit :=
  (s.bind fun p => match i with
    | .packet b => parsePacket fresh p b
    | .filters fs => some { p with filters := fs }
    | .reset => some (parserReset p), ())

/-- The copy for a packet is in the buffer of its channel. -/
def PacketFits (fresh : Channel) (s : Option TSParser) (i : PacketInput) : Prop :=
  ∀ p b, s = some p → i = .packet b → Carries b →
    PayloadFits (Emu.chanOf fresh p (tsPid b)) (tsPayload b).length (b.getD 1 0 &&& 0x40 ≠ 0)

/-- A packet that starts no payload unit does not overfill its channel. -/
def NoOverfill (fresh : Channel) (s : Option TSParser) (i : PacketInput) : Prop :=
  ∀ p b, s = some p → i = .packet b → Carries b → b.getD 1 0 &&& 0x40 = 0 →
    ¬ (Emu.chanOf fresh p (tsPid b)).Overfills (tsPayload b).length

theorem packetFits_iff {fresh : Channel} {s : Option TSParser} (hs : ∀ p, s = some p → AllRest p)
    (i : PacketInput) : PacketFits fresh s i ↔ NoOverfill fresh s i := by
  refine forall₂_congr fun p b => ?_
  refine imp_congr_right fun hp => imp_congr_right fun _ => imp_congr_right fun _ => ?_
  rw [payloadFits_iff ((hs p hp).chanOf fresh _) (length_tsPayload b), not_and]
  simp only [decide_eq_false_iff_not, not_not]

theorem allRest_step {fresh : Channel} {s : Option TSParser} (hs : ∀ p, s = some p → AllRest p)
    (i : PacketInput) : ∀ p, (packetStep fresh s i).1 = some p → AllRest p := by
  intro p hp
  obtain ⟨q, rfl, hp⟩ := Option.bind_eq_some_iff.mp hp
  have hq := hs q rfl
  cases i with
  | packet b => exact hq.parsePacket hp
  | filters fs =>
    cases hp
    exact hq
  | reset =>
    cases hp
    intro c hc
    obtain ⟨d, -, rfl⟩ := List.mem_map.mp hc
    exact atRest_chanReset d

/-- In every run of the emulated demultiplexer, a copy leaves the buffer of a channel exactly where a
packet overfills it. -/
theorem packetFits_run_iff (fresh : Channel) (filters : List Filter) (is : List PacketInput) :
    Each (PacketFits fresh) (packetStep fresh) (some (threadStart filters)) is ↔
      Each (NoOverfill fresh) (packetStep fresh) (some (threadStart filters)) is := by
  have hinit : ∀ p, some (threadStart filters) = some p → AllRest p := by
    intro p hp
    cases hp
    exact fun _ hc => absurd hc List.not_mem_nil
  exact each_congr (fun _ i hs => allRest_step hs i)
    (fun _ i hs => packetFits_iff hs i) hinit

end

/-- The first packet of a section of 4096 bytes on PID 0x11. -/
def longStart : List Byte :=
  [0x47, 0x40, 0x11, 0x10, 0, 0x42, 0x0F, 0xFD] ++ List.replicate 180 0

/-- A packet that goes on on PID 0x11. -/
def longRest : List Byte := [0x47, 0x00, 0x11, 0x10] ++ List.replicate 184 0

/-- All of the section but its last 49 bytes. -/
def longSection : List PacketInput := .packet longStart :: List.replicate 21 (.packet longRest)

end Emu

/-! ## Both demultiplexers -/

/-- **The copies into the section buffers.** For every sequence of packets, whatever happens to the
filters and the readers in between: a copy of `parse_payload` leaves the buffer exactly where a packet
overfills its channel, and a copy of `check_sec` exactly where a packet brings byte 4097 of a section. -/
theorem section_copies_iff (fresh : Emu.Channel) (filters : List Emu.Filter) (is : List Emu.PacketInput)
    (env : List (List Op)) (ins : List Input) :
    (Each (Emu.PacketFits fresh) (Emu.packetStep fresh) (some (Emu.threadStart filters)) is ↔
      Each (Emu.NoOverfill fresh) (Emu.packetStep fresh) (some (Emu.threadStart filters)) is) ∧
    (Each (AtPacket CopiesFit) dvrStep (some ⟨dvrOpen, env⟩) ins ↔
      Each (AtPacket NoOverrun) dvrStep (some ⟨dvrOpen, env⟩) ins) :=
  ⟨Emu.packetFits_run_iff fresh filters is, copiesFit_run_iff env ins⟩

/-- The last packet of a section of 4096 bytes is copied whole: 4047 bytes and 184 more. -/
theorem section_copies_longSection :
    ¬ Each (Emu.PacketFits Emu.zeroChannel) (Emu.packetStep Emu.zeroChannel)
      (some (Emu.threadStart [])) (Emu.longSection ++ [.packet Emu.longRest]) := by
  intro h
  obtain ⟨p, hp, hstage, hbytes⟩ : ∃ p ∈ (run (Emu.packetStep Emu.zeroChannel)
      (some (Emu.threadStart [])) Emu.longSection).1,
      (Emu.chanOf Emu.zeroChannel p 0x11).stage = .data ∧
        (Emu.chanOf Emu.zeroChannel p 0x11).bytes = 4047 := by decide +kernel
  have hcarries : tsPid Emu.longRest = 0x11 ∧ (tsPayload Emu.longRest).length = 184 := by decide +kernel
  have hfit := (each_append.1 h).2.1 p Emu.longRest hp rfl (by unfold Emu.Carries; decide +kernel)
  rw [hcarries.1, hcarries.2] at hfit
  have := hfit (.inr (by rw [hstage]; exact nofun))
  rw [hbytes] at this
  exact absurd this (by decide +kernel)

end VendorAmlogic.Demux
