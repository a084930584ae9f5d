import VendorAmlogic.Lib.Bytes
import VendorAmlogic.Lib.Window

/-!
# The bandwidth that is measured

`bandwidth_measure_alloc` and `bandwidth_measure_add` of
`downloader/hls_bandwidth_measure.c`. A ring has the last samples, and two sums
of each field go with it: over the whole ring, and over the last tenth of it.
The sums of type `int` and `int64_t` wrap.
-/

namespace VendorAmlogic.Hls.Measure

open VendorAmlogic.Lib

/-! ## Model -/

/-- `struct rdata`. -/
structure RData where
  bytes : Int
  delayUs : Int
  deriving DecidableEq

/-- What the two functions use of `struct ratesdata`. -/
structure RatesData where
  rdataIndex : Int
  rdataNum : Int
  totalBytes : Int
  latestMDurationUs : Int
  latestMBytes : Int
  latestFDurationUs : Int
  latestFBytes : Int
  rdataFNum : Int
  data : Int → RData

/-- `LAST_F_INDEX`. -/
def lastFIndex (i n nn : Int) : Int :=
  if i32 (i - nn) < 0 then i32 (i32 (n + i) - nn) else i32 (i - nn)

/-- `rdata_f_num` for a ring of `measurenum` samples. -/
def fNum (measurenum : Int) : Int := if measurenum / 10 < 2 then 2 else measurenum / 10

/-- The ring after `memset` and with its lengths. -/
def noRates (measurenum : Int) : RatesData where
  rdataIndex := 0
  rdataNum := measurenum
  totalBytes := 0
  latestMDurationUs := 0
  latestMBytes := 0
  latestFDurationUs := 0
  latestFBytes := 0
  rdataFNum := fNum measurenum
  data := fun _ => ⟨0, 0⟩

/-- `bandwidth_measure_alloc`. -/
def bandwidthMeasureAlloc (measurenum : Int) (malloc : Bool) : Option RatesData :=
  if malloc then some (noRates measurenum) else none

/-- `x -= old`, and then `x += new`, of an `int`. -/
def exchange (x old new : Int) : Int := i32 (i32 (x - old) + new)

/-- `bandwidth_measure_add`. -/
def bandwidthMeasureAdd (rates : RatesData) (bytes delayUs : Int) : RatesData :=
  let rdata := rates.data rates.rdataIndex
  let data := Function.update rates.data rates.rdataIndex ⟨bytes, delayUs⟩
  let rdataF := data (lastFIndex rates.rdataIndex rates.rdataNum rates.rdataFNum)
  { rates with
    latestMBytes := exchange rates.latestMBytes rdata.bytes bytes
    latestMDurationUs := exchange rates.latestMDurationUs rdata.delayUs delayUs
    data := data
    latestFBytes := exchange rates.latestFBytes rdataF.bytes bytes
    latestFDurationUs := exchange rates.latestFDurationUs rdataF.delayUs delayUs
    totalBytes := i64 (rates.totalBytes + bytes)
    rdataIndex := (rates.rdataIndex + 1) % rates.rdataNum }

/-- Calls of `bandwidth_measure_add`, one for each sample. -/
def addAll (rates : RatesData) (xs : List RData) : RatesData :=
  xs.foldl (fun rates x => bandwidthMeasureAdd rates x.bytes x.delayUs) rates

/-! ## The windows -/

/-- The ring and its sums, after the samples `xs`. -/
structure Inv (n f : Nat) (xs : List RData) (rates : RatesData) : Prop where
  num : rates.rdataNum = n
  fnum : rates.rdataFNum = f
  index : rates.rdataIndex = (xs.length % n : Nat)
  kept : KeptIn n ⟨0, 0⟩ (fun i : Nat => rates.data i) xs
  mBytes : rates.latestMBytes = i32 (windowSum n (xs.map RData.bytes))
  mDuration : rates.latestMDurationUs = i32 (windowSum n (xs.map RData.delayUs))
  fBytes : rates.latestFBytes = i32 (windowSum f (xs.map RData.bytes))
  fDuration : rates.latestFDurationUs = i32 (windowSum f (xs.map RData.delayUs))
  total : rates.totalBytes = i64 (xs.map RData.bytes).sum

section Windows

variable {n f : Nat} {xs : List RData} {rates : RatesData}

theorem exchange_i32 (s old new : Int) : exchange (i32 s) old new = i32 (s - old + new) := by
  unfold exchange i32
  rw [sub_eq_add_neg, Int.bmod_add_bmod, add_assoc, Int.bmod_add_bmod, ← add_assoc, sub_eq_add_neg]

/-- The place `nn` before `i` in a ring of `n`. -/
theorem lastFIndex_eq {i nn : Nat} (hi : i < n) (h0 : 0 < nn) (hnn : nn < n) (hn : n < 2 ^ 31) :
    lastFIndex i n nn = ((i + (n - nn)) % n : Nat) := by
  have hdiff : i32 ((i : Int) - nn) = (i : Int) - nn := i32_eq_self (by omega) (by omega)
  unfold lastFIndex
  rw [hdiff]
  by_cases hlt : i < nn
  · have hsum : i32 (i32 ((n : Int) + i) - nn) = (n : Int) + i - nn := by
      have hin : i32 ((n : Int) + i - nn) = (n : Int) + i - nn :=
        i32_eq_self (by omega) (by omega)
      rw [← hin]
      unfold i32
      rw [sub_eq_add_neg, Int.bmod_add_bmod, sub_eq_add_neg]
    rw [if_pos (by omega), hsum, Nat.mod_eq_of_lt (by omega)]
    omega
  · have hmod : (i + (n - nn)) % n = i - nn := by
      rw [show i + (n - nn) = i - nn + n by omega, Nat.add_mod_right, Nat.mod_eq_of_lt (by omega)]
    rw [if_neg (by omega), hmod]
    omega

theorem Inv.alloc (n : Nat) (hf : fNum n = f) (h : bandwidthMeasureAlloc n true = some rates) :
    Inv n f [] rates := by
  obtain rfl := Option.some.inj h
  have hsum (w : Nat) (g : RData → Int) :
      (0 : Int) = i32 (windowSum w (([] : List RData).map g)) := by
    rw [List.map_nil, windowSum_nil]
    rfl
  have hindex : (0 : Int) = (([] : List RData).length % n : Nat) := by
    rw [List.length_nil, Nat.zero_mod]
    rfl
  exact ⟨rfl, hf, hindex, .init n _, hsum n _, hsum n _, hsum f _, hsum f _, rfl⟩

/-- One call keeps the windows: the ring loses its oldest sample, and the short window the one that
stands where the new sample has not been put. -/
theorem Inv.add (h : Inv n f xs rates) (hn : n < 2 ^ 31) (h0 : 0 < f) (hf : f < n) (x : RData) :
    Inv n f (xs ++ [x]) (bandwidthMeasureAdd rates x.bytes x.delayUs) := by
  obtain ⟨n, rfl⟩ : ∃ n', n = n' + 1 := ⟨n - 1, by omega⟩
  obtain ⟨f, rfl⟩ : ∃ f', f = f' + 1 := ⟨f - 1, by omega⟩
  have hlt : xs.length % (n + 1) < n + 1 := Nat.mod_lt _ (Nat.succ_pos n)
  have hold : rates.data rates.rdataIndex = ago ⟨0, 0⟩ xs n := by
    rw [h.index]
    exact h.kept.oldest
  have hput : (fun i : Nat => Function.update rates.data rates.rdataIndex x i) =
      Function.update (fun i : Nat => rates.data i) (xs.length % (n + 1)) x := by
    funext i
    rw [h.index]
    by_cases hi : i = xs.length % (n + 1)
    · rw [hi, Function.update_self, Function.update_self]
    · rw [Function.update_of_ne hi, Function.update_of_ne (by omega)]
  have hfast : Function.update rates.data rates.rdataIndex x
      (lastFIndex rates.rdataIndex rates.rdataNum rates.rdataFNum) = ago ⟨0, 0⟩ xs f := by
    rw [h.num, h.fnum, h.index, lastFIndex_eq hlt h0 hf hn, Nat.mod_add_mod, ← h.index]
    exact (congrFun hput _).trans (h.kept.before h0 hf x)
  have hnext (w : Nat) (g : RData → Int) (hg : g ⟨0, 0⟩ = 0) :
      exchange (i32 (windowSum (w + 1) (xs.map g))) (g (ago ⟨0, 0⟩ xs w)) (g x) =
        i32 (windowSum (w + 1) ((xs ++ [x]).map g)) := by
    rw [exchange_i32, List.map_append, List.map_singleton, windowSum_append, ← ago_map g,
      hg]
  refine ⟨h.num, h.fnum, ?_, ?_, ?_, ?_, ?_, ?_, ?_⟩
  · show (rates.rdataIndex + 1) % rates.rdataNum = _
    rw [h.num, h.index, List.length_append, List.length_singleton, ← Nat.mod_add_mod]
    push_cast
    rfl
  · show KeptIn _ _ (fun i : Nat => Function.update rates.data rates.rdataIndex x i) _
    rw [hput]
    exact h.kept.push x
  · show exchange rates.latestMBytes (rates.data rates.rdataIndex).bytes x.bytes = _
    rw [hold, h.mBytes]
    exact hnext n RData.bytes rfl
  · show exchange rates.latestMDurationUs (rates.data rates.rdataIndex).delayUs x.delayUs = _
    rw [hold, h.mDuration]
    exact hnext n RData.delayUs rfl
  · show exchange rates.latestFBytes (RData.bytes (Function.update rates.data
      rates.rdataIndex x (lastFIndex rates.rdataIndex rates.rdataNum rates.rdataFNum))) _ = _
    rw [hfast, h.fBytes]
    exact hnext f RData.bytes rfl
  · show exchange rates.latestFDurationUs (RData.delayUs (Function.update rates.data
      rates.rdataIndex x (lastFIndex rates.rdataIndex rates.rdataNum rates.rdataFNum))) _ = _
    rw [hfast, h.fDuration]
    exact hnext f RData.delayUs rfl
  · show i64 (rates.totalBytes + x.bytes) = _
    rw [h.total, i64_add_i64, List.map_append, List.map_singleton, List.sum_append,
      List.sum_singleton]

theorem Inv.addAll (h : Inv n f xs rates) (hn : n < 2 ^ 31) (h0 : 0 < f) (hf : f < n)
    (ys : List RData) : Inv n f (xs ++ ys) (addAll rates ys) := by
  induction ys generalizing xs rates with
  | nil =>
    rw [List.append_nil]
    exact h
  | cons y ys ih =>
    rw [List.append_cons]
    exact ih (h.add hn h0 hf y)

end Windows

/-! ## The sums -/

/-- The sums over the last `measurenum` samples, over the last `rdata_f_num` ones and over all. -/
structure Sums (measurenum : Nat) (xs : List RData) (rates : RatesData) : Prop where
  fnum : rates.rdataFNum = fNum measurenum
  mBytes : rates.latestMBytes = i32 (windowSum measurenum (xs.map RData.bytes))
  mDuration : rates.latestMDurationUs = i32 (windowSum measurenum (xs.map RData.delayUs))
  fBytes : rates.latestFBytes = i32 (windowSum rates.rdataFNum.toNat (xs.map RData.bytes))
  fDuration : rates.latestFDurationUs = i32 (windowSum rates.rdataFNum.toNat (xs.map RData.delayUs))
  total : rates.totalBytes = i64 (xs.map RData.bytes).sum

section Sums

variable {measurenum : Nat} {rates : RatesData}

theorem addAll_inv (h3 : 3 ≤ measurenum) (hn : measurenum < 2 ^ 31)
    (h : bandwidthMeasureAlloc measurenum true = some rates) (xs : List RData) :
    ∃ f : Nat, fNum measurenum = f ∧ Inv measurenum f xs (addAll rates xs) := by
  have hf : ∃ f : Nat, fNum measurenum = f ∧ 0 < f ∧ f < measurenum := by
    unfold fNum
    by_cases h2 : (measurenum : Int) / 10 < 2
    · exact ⟨2, by rw [if_pos h2]; rfl, by decide, by omega⟩
    · exact ⟨measurenum / 10, by rw [if_neg h2]; rfl, by omega, by omega⟩
  obtain ⟨f, hfnum, h0, hlt⟩ := hf
  exact ⟨f, hfnum, (Inv.alloc measurenum hfnum h).addAll hn h0 hlt xs⟩

/-- **The windows** after any samples. -/
theorem addAll_sums (h3 : 3 ≤ measurenum) (hn : measurenum < 2 ^ 31)
    (h : bandwidthMeasureAlloc measurenum true = some rates) (xs : List RData) :
    Sums measurenum xs (addAll rates xs) := by
  obtain ⟨f, hfnum, hinv⟩ := addAll_inv h3 hn h xs
  have hf : (addAll rates xs).rdataFNum.toNat = f := by
    rw [hinv.fnum]
    rfl
  refine ⟨hinv.fnum.trans hfnum.symm, hinv.mBytes, hinv.mDuration, ?_, ?_, hinv.total⟩
  · rw [hf]
    exact hinv.fBytes
  · rw [hf]
    exact hinv.fDuration

end Sums

/-- Four samples in a ring of three. -/
theorem addAll_sums_three :
    Sums 3 [⟨5, 1⟩, ⟨6, 1⟩, ⟨7, 2⟩, ⟨8, 1⟩]
      (addAll (noRates 3) [⟨5, 1⟩, ⟨6, 1⟩, ⟨7, 2⟩, ⟨8, 1⟩]) :=
  addAll_sums (by decide) (by decide) rfl _

/-- **More than `int64_t` has**: 2^33 samples of the greatest `int`. -/
theorem total_wraps :
    (addAll (noRates 3) (List.replicate (2 ^ 33) ⟨2 ^ 31 - 1, 1⟩)).totalBytes ≠
      ((List.replicate (2 ^ 33) (⟨2 ^ 31 - 1, 1⟩ : RData)).map RData.bytes).sum := by
  have halloc : bandwidthMeasureAlloc ((3 : Nat) : Int) true = some (noRates 3) := rfl
  obtain ⟨f, -, hinv⟩ := addAll_inv (by decide) (by decide) halloc
    (List.replicate (2 ^ 33) ⟨2 ^ 31 - 1, 1⟩)
  have hsum : ((List.replicate (2 ^ 33) (⟨2 ^ 31 - 1, 1⟩ : RData)).map RData.bytes).sum =
      2 ^ 33 * (2 ^ 31 - 1) := by
    rw [List.map_replicate, List.sum_replicate]
    norm_num
  have hlt := i64_lt (2 ^ 33 * (2 ^ 31 - 1))
  rw [hinv.total, hsum]
  omega

end VendorAmlogic.Hls.Measure
