import VendorAmlogic.Lib.BubbleSort
import VendorAmlogic.Hls.Session
import VendorAmlogic.Hls.Variants

/-!
# The bandwidth that is used

`_sort_m3u_session_bandwidth` and `_get_best_bandwidth_index` of
`hls_main/hls_m3ulivesession.c`. The variants are sorted by their bandwidth, and
the greatest one that 80 percent of the estimate carry is used. Near the end of a
complete playlist the index stays as it is. There is no result where the code
would access `NULL` or a place outside of the list, and where the search for a
valid variant after a forced switch does not end.
-/

namespace VendorAmlogic.Hls

open VendorAmlogic.Lib

/-! ## The source -/

/-- A variant; `mBandwidth` is unsigned. -/
structure BandwidthItem where
  index : Int
  mBandwidth : Nat
  playlist : Option Fetched

/-- `m3u_is_invalid` of the playlist, if there is one. -/
def BandwidthItem.isInvalid (item : BandwidthItem) : Bool :=
  match item.playlist with
  | some f => f.isInvalid
  | none => false

def bandwidthThreshold : Nat := 5000

/-- 1000 where the greatest bandwidth `last` looks as if it was in kilobits. -/
def bandwidthCoeff (last : Nat) : Nat :=
  if last > 0 ∧ last < bandwidthThreshold then 1000 else 1

/-- `_sort_m3u_session_bandwidth`. No product is too large: 1000 is used below the threshold. -/
def sortM3uSessionBandwidth (list : List BandwidthItem) : List BandwidthItem :=
  if list.length ≤ 1 then list
  else
    let sorted := bubbleSort BandwidthItem.mBandwidth list.length list
    let coeff := bandwidthCoeff ((sorted.getLast?.map BandwidthItem.mBandwidth).getD 0)
    sorted.mapIdx fun i item => { item with index := i, mBandwidth := item.mBandwidth * coeff }

/-- The settings `libplayer.hls.profile`, `libplayer.hls.fixed_bw`, `media.amplayer.quality` and
`media.httplive.max-bw`. -/
structure RateEnv where
  adaptiveProfile : Int
  fixedBw : Int
  bwquality : Int
  maxBw : Int

/-- What the session holds for the choice. -/
structure RateSession where
  bandwidthList : List BandwidthItem
  prevBandwidthIndex : Int
  playlist : Option M3UParser
  curSeqNum : Int
  forceSwitchBandwidthIndex : Int
  fixbw : Int
  seekStep : Int
  isToClose : Int
  streamEstimateBps : Int
  codecDataTime : Int

def codecBufferLowFlag : Int := 20

/-- The search for a valid variant from a forced one on. A search that has seen all of them does
not end. -/
def forceSwitch (list : List BandwidthItem) : Nat → Nat → Option Nat
  | 0, _ => none
  | n + 1, i => do
    let item ← list[i]?
    if item.isInvalid then forceSwitch list n ((i + 1) % list.length) else some i

/-- The index for a fixed quality: 0 is the best one and 1 the lowest. -/
def RateSession.qualityIndex (s : RateSession) (bwquality : Int) : Int :=
  let bwIndex := if bwquality = 0 then s.bandwidthList.length - 1 else 0
  match s.bandwidthList[bwIndex]? with
  | none => s.prevBandwidthIndex
  | some item => if item.isInvalid then s.prevBandwidthIndex else bwIndex

/-- Whether fewer than three segments of a complete playlist are left. -/
def RateSession.nearEnd (s : RateSession) : Option Bool :=
  match s.playlist with
  | none => some false
  | some p =>
    if p.isComplete then
      (p.getNodeByIndex 0).map fun node0 =>
        decide (i32 (p.baseNodeNum - (s.curSeqNum - firstSeqNumber node0)) < 3)
    else some false

/-- The loop down to a variant of at most `estBps`, from the index on. -/
def lowerIndex (list : List BandwidthItem) (estBps : Nat) : Nat → Option Nat
  | 0 => some 0
  | index + 1 => do
    let item ← list[index + 1]?
    if item.mBandwidth > estBps then lowerIndex list estBps index else some (index + 1)

/-- Whether the codec buffer is low; -1 stands for no level. -/
def RateSession.bufferLow (s : RateSession) : Bool :=
  decide (s.codecDataTime ≥ 0 ∧ s.codecDataTime < codecBufferLowFlag)

/-- The choice by the usable part of the estimate. -/
def RateSession.fitIndex (s : RateSession) (estBps : Int) : Option Int := do
  let best ← lowerIndex s.bandwidthList (u64 estBps) (s.bandwidthList.length - 1)
  let index : Int :=
    if best > u64 s.prevBandwidthIndex ∧ s.bufferLow then s.prevBandwidthIndex else best
  let item ← s.bandwidthList[index.toNat]?
  some (if item.isInvalid then s.prevBandwidthIndex else index)

/-- The part behind the settings. -/
def RateSession.adaptIndex (env : RateEnv) (s : RateSession) : Option Int :=
  if s.bandwidthList.length > 0 ∧ s.fixbw = 0 ∧ s.seekStep ≤ 0 ∧ s.isToClose ≤ 0 then do
    if ← s.nearEnd then some s.prevBandwidthIndex
    else if s.streamEstimateBps = 0 then some s.prevBandwidthIndex
    else
      let estBps :=
        if env.maxBw > 0 ∧ s.streamEstimateBps > env.maxBw then i32 env.maxBw
        else s.streamEstimateBps
      s.fitIndex ((i32 (estBps * 8)).tdiv 10)
  else some (if s.seekStep > 0 then 0 else s.prevBandwidthIndex)

/-- `_get_best_bandwidth_index`. For a media item the index of the session is returned. -/
def getBestBandwidthIndex (env : RateEnv) (s : RateSession) (mediaItem : Bool) :
    Option (RateSession × Int) :=
  if mediaItem then some (s, s.prevBandwidthIndex)
  else if env.adaptiveProfile = 0 then
    some (s, if env.fixedBw ≥ 0 ∧ env.fixedBw ≤ s.bandwidthList.length - 1 ∧
      env.fixedBw ≠ s.prevBandwidthIndex then env.fixedBw else s.prevBandwidthIndex)
  else if s.forceSwitchBandwidthIndex ≥ 0 then
    (forceSwitch s.bandwidthList s.bandwidthList.length s.forceSwitchBandwidthIndex.toNat).map
      fun i => ({ s with forceSwitchBandwidthIndex := i }, i)
  else if env.bwquality = 0 ∨ env.bwquality = 1 then some (s, s.qualityIndex env.bwquality)
  else (s.adaptIndex env).map fun i => (s, i)

/-! ## The sort -/

section
variable (list : List BandwidthItem)

@[simp] theorem sortM3uSessionBandwidth_length :
    (sortM3uSessionBandwidth list).length = list.length := by
  unfold sortM3uSessionBandwidth
  split
  · rfl
  · rw [List.length_mapIdx]
    exact (bubbleSort_sorts BandwidthItem.mBandwidth list).1.length_eq

/-- The bandwidths do not decrease. -/
theorem sortM3uSessionBandwidth_sorted :
    (sortM3uSessionBandwidth list).Pairwise fun a b => a.mBandwidth ≤ b.mBandwidth := by
  unfold sortM3uSessionBandwidth
  split
  · rename_i hlen
    cases list with
    | nil => exact .nil
    | cons a rest =>
      rw [List.length_cons] at hlen
      obtain rfl : rest = [] := List.eq_nil_of_length_eq_zero (by omega)
      exact List.pairwise_singleton _ a
  · have hsorted := (bubbleSort_sorts BandwidthItem.mBandwidth list).2
    generalize bubbleSort BandwidthItem.mBandwidth list.length list = sorted at hsorted
    rw [List.pairwise_iff_getElem] at hsorted ⊢
    intro i j hi hj hij
    rw [List.length_mapIdx] at hi hj
    rw [List.getElem_mapIdx, List.getElem_mapIdx]
    exact Nat.mul_le_mul_right _ (hsorted i j hi hj hij)

end

/-! ## The choice -/

/-- 80 percent of the estimate carry the variant. -/
def RateSession.Carries (s : RateSession) (j : Nat) : Prop :=
  ∃ item, s.bandwidthList[j]? = some item ∧ 10 * (item.mBandwidth : Int) ≤ 8 * s.streamEstimateBps

/-- The greatest index that is carried, with all below it, or 0. -/
structure RateSession.Best (s : RateSession) (i : Nat) : Prop where
  range : i < s.bandwidthList.length
  carries : i ≠ 0 → ∀ j ≤ i, s.Carries j
  above : ∀ j, i < j → ¬ s.Carries j

/-- The index is the best one, but a step up waits while the buffer is low. -/
def RateSession.Adapted (s : RateSession) (i : Int) : Prop :=
  ∃ best : Nat, s.Best best ∧
    i = if (best : Int) > s.prevBandwidthIndex ∧ s.bufferLow then s.prevBandwidthIndex else best

/-- Adaptation is enabled, with no forced switch, fixed quality, seek or cap, no playlist is
invalid, and the previous index, an `int`, is in range. -/
structure RateSession.Adapting (env : RateEnv) (s : RateSession) : Prop where
  profile : env.adaptiveProfile ≠ 0
  quality : env.bwquality ≠ 0 ∧ env.bwquality ≠ 1
  noCap : env.maxBw ≤ 0
  noForce : s.forceSwitchBandwidthIndex < 0
  noFix : s.fixbw = 0
  noSeek : s.seekStep ≤ 0
  valid : ∀ item ∈ s.bandwidthList, item.isInvalid = false
  prev : 0 ≤ s.prevBandwidthIndex ∧ s.prevBandwidthIndex < s.bandwidthList.length
  prevInt : s.prevBandwidthIndex < 2 ^ 31

/-- The loop stops at the greatest index that fits, or at 0. -/
theorem lowerIndex_spec (list : List BandwidthItem) (estBps start : Nat)
    (h : start < list.length) :
    ∃ i ≤ start, lowerIndex list estBps start = some i ∧
      (i ≠ 0 → ∃ item, list[i]? = some item ∧ item.mBandwidth ≤ estBps) ∧
      ∀ j, i < j → j ≤ start → ∀ item, list[j]? = some item → estBps < item.mBandwidth := by
  induction start with
  | zero => exact ⟨0, le_rfl, rfl, fun h => absurd rfl h, fun j h0 h1 => by omega⟩
  | succ start ih =>
    have hget : list[start + 1]? = some list[start + 1] := List.getElem?_eq_getElem h
    simp only [lowerIndex, hget, Option.bind_eq_bind, Option.bind_some]
    by_cases hbig : list[start + 1].mBandwidth > estBps
    · obtain ⟨i, hi, heq, hfit, habove⟩ := ih (by omega)
      refine ⟨i, by omega, by rw [if_pos hbig, heq], hfit, fun j h0 h1 item hitem => ?_⟩
      rcases Nat.lt_or_ge start j with hj | hj
      · obtain rfl : j = start + 1 := by omega
        rw [hget] at hitem
        cases hitem
        exact hbig
      · exact habove j h0 hj item hitem
    · refine ⟨start + 1, le_rfl, by rw [if_neg hbig], fun _ => ⟨_, hget, not_lt.mp hbig⟩, ?_⟩
      intro j h0 h1
      omega

section
variable {env : RateEnv} {s : RateSession} {list : List BandwidthItem}

/-- Below a variant that is carried all are carried. -/
theorem RateSession.Carries.below {i j : Nat}
    (hsort : s.bandwidthList.Pairwise fun a b => a.mBandwidth ≤ b.mBandwidth)
    (h : s.Carries i) (hj : j ≤ i) : s.Carries j := by
  obtain ⟨item, hitem, hle⟩ := h
  obtain ⟨hi, rfl⟩ := List.getElem?_eq_some_iff.mp hitem
  refine ⟨s.bandwidthList[j], List.getElem?_eq_getElem (by omega), ?_⟩
  rcases Nat.lt_or_ge j i with hlt | hge
  · have := List.pairwise_iff_getElem.mp hsort j i (by omega) hi hlt
    omega
  · obtain rfl : i = j := by omega
    exact hle

/-- The usable part of an estimate whose multiple by 8 is an `int`. -/
theorem usable_eq {est : Int} (h0 : 0 ≤ est) (h1 : est < 2 ^ 28) :
    u64 ((i32 (est * 8)).tdiv 10) = (est * 8 / 10).toNat := by
  rw [i32_eq_self (by omega) (by omega), Int.tdiv_eq_ediv_of_nonneg (by omega)]
  have h := u64_natCast (n := (est * 8 / 10).toNat) (by omega)
  rwa [Int.toNat_of_nonneg (by omega)] at h

/-- The index where the loop stops, for the usable part of the estimate. -/
theorem best_of_lowerIndex (hsort : s.bandwidthList = sortM3uSessionBandwidth list)
    (hne : 0 < s.bandwidthList.length) (h0 : 0 ≤ s.streamEstimateBps)
    (h1 : s.streamEstimateBps < 2 ^ 28) :
    ∃ best, lowerIndex s.bandwidthList (u64 ((i32 (s.streamEstimateBps * 8)).tdiv 10))
        (s.bandwidthList.length - 1) = some best ∧ s.Best best := by
  rw [usable_eq h0 h1]
  obtain ⟨i, hi, heq, hfit, habove⟩ := lowerIndex_spec s.bandwidthList
    (s.streamEstimateBps * 8 / 10).toNat (s.bandwidthList.length - 1) (by omega)
  refine ⟨i, heq, by omega, fun hi0 j hj => ?_, ?_⟩
  · obtain ⟨item, hitem, hle⟩ := hfit hi0
    exact RateSession.Carries.below (hsort ▸ sortM3uSessionBandwidth_sorted list)
      ⟨item, hitem, by omega⟩ hj
  · rintro j hj ⟨item, hitem, hle⟩
    have hlt := (List.getElem?_eq_some_iff.mp hitem).1
    have := habove j hj (by omega) item hitem
    omega

/-- Behind the loop only a low buffer counts. -/
theorem fitIndex_eq {estBps : Int} {best : Nat} (ha : s.Adapting env)
    (hbest : lowerIndex s.bandwidthList (u64 estBps) (s.bandwidthList.length - 1) = some best)
    (hlt : best < s.bandwidthList.length) :
    s.fitIndex estBps = some (if (best : Int) > s.prevBandwidthIndex ∧ s.bufferLow then
      s.prevBandwidthIndex else best) := by
  obtain ⟨h0, h1⟩ := ha.prev
  have hu := u64_cast h0 (ha.prevInt.trans (by decide))
  have hup : best > u64 s.prevBandwidthIndex ↔ (best : Int) > s.prevBandwidthIndex := by omega
  simp only [RateSession.fitIndex, hbest, Option.bind_eq_bind, Option.bind_some, hup]
  generalize hi : (if (best : Int) > s.prevBandwidthIndex ∧ s.bufferLow then
    s.prevBandwidthIndex else (best : Int)) = index
  have hrange : 0 ≤ index ∧ index.toNat < s.bandwidthList.length := by
    rw [← hi]
    split <;> omega
  rw [List.getElem?_eq_getElem hrange.2, Option.bind_some, ha.valid _ (List.getElem_mem _)]
  rfl

/-- What is left of `_get_best_bandwidth_index` for a session that adapts. -/
theorem getBestBandwidthIndex_adapting (ha : s.Adapting env) :
    getBestBandwidthIndex env s false = (s.adaptIndex env).map fun i => (s, i) := by
  have hquality : ¬ (env.bwquality = 0 ∨ env.bwquality = 1) := by
    rintro (h | h)
    · exact ha.quality.1 h
    · exact ha.quality.2 h
  unfold getBestBandwidthIndex
  rw [if_neg Bool.false_ne_true, if_neg ha.profile, if_neg (not_le.mpr ha.noForce),
    if_neg hquality]

/-- Near the end, or when the session is to be closed, the index stays. -/
theorem adaptIndex_keeps (ha : s.Adapting env) (h : s.nearEnd = some true ∨ 0 < s.isToClose) :
    s.adaptIndex env = some s.prevBandwidthIndex := by
  unfold RateSession.adaptIndex
  split
  · rename_i hopen
    have hnear : s.nearEnd = some true := h.resolve_right (not_lt.mpr hopen.2.2.2)
    rw [hnear]
    rfl
  · rw [if_neg (not_lt.mpr ha.noSeek)]

/-- Elsewhere the estimate decides. -/
theorem adaptIndex_eq (ha : s.Adapting env) (hnear : s.nearEnd = some false)
    (hopen : s.isToClose ≤ 0) :
    s.adaptIndex env = if s.streamEstimateBps = 0 then some s.prevBandwidthIndex
      else s.fitIndex ((i32 (s.streamEstimateBps * 8)).tdiv 10) := by
  have hlen : s.bandwidthList.length > 0 := by
    have := ha.prev
    omega
  have hcap : ¬ (env.maxBw > 0 ∧ s.streamEstimateBps > env.maxBw) := by
    have := ha.noCap
    omega
  unfold RateSession.adaptIndex
  rw [if_pos ⟨hlen, ha.noFix, ha.noSeek, hopen⟩, hnear]
  dsimp only [Option.bind_eq_bind, Option.bind_some]
  rw [if_neg hcap]
  rfl

/-- For every estimate the index is in range. -/
theorem adaptIndex_range (ha : s.Adapting env) (hnear : s.nearEnd = some false)
    (hopen : s.isToClose ≤ 0) :
    ∃ i, s.adaptIndex env = some i ∧ 0 ≤ i ∧ i < s.bandwidthList.length := by
  have hprev := ha.prev
  rw [adaptIndex_eq ha hnear hopen]
  split
  · exact ⟨_, rfl, hprev⟩
  · obtain ⟨best, hle, hbest, -, -⟩ := lowerIndex_spec s.bandwidthList
      (u64 ((i32 (s.streamEstimateBps * 8)).tdiv 10)) (s.bandwidthList.length - 1) (by omega)
    refine ⟨_, fitIndex_eq ha hbest (by omega), ?_⟩
    split <;> omega

/-- The choice by an estimate. -/
theorem adaptIndex_adapted (hsort : s.bandwidthList = sortM3uSessionBandwidth list)
    (ha : s.Adapting env) (hnear : s.nearEnd = some false) (hopen : s.isToClose ≤ 0)
    (h0 : 0 < s.streamEstimateBps) (h1 : s.streamEstimateBps < 2 ^ 28) :
    ∃ i, s.adaptIndex env = some i ∧ s.Adapted i := by
  have hprev := ha.prev
  obtain ⟨best, hloop, hbest⟩ := best_of_lowerIndex hsort (by omega) h0.le h1
  refine ⟨_, ?_, best, hbest, rfl⟩
  rw [adaptIndex_eq ha hnear hopen, if_neg h0.ne', fitIndex_eq ha hloop hbest.range]

/-- More throughput never lowers the index. -/
theorem RateSession.Adapted.mono {i i' : Int} {est : Int} (h : s.Adapted i)
    (h' : RateSession.Adapted { s with streamEstimateBps := est } i')
    (hle : s.streamEstimateBps ≤ est) : i ≤ i' := by
  obtain ⟨best, hbest, rfl⟩ := h
  obtain ⟨best', hbest', rfl⟩ := h'
  have hmono : best ≤ best' := by
    by_contra hlt
    obtain ⟨item, hitem, hfit⟩ := hbest.carries (by omega) best le_rfl
    refine hbest'.above best (not_le.mp hlt) ⟨item, hitem, ?_⟩
    dsimp only
    omega
  have hlow : RateSession.bufferLow { s with streamEstimateBps := est } = s.bufferLow := rfl
  rw [hlow]
  cases s.bufferLow with
  | true =>
    simp only [and_true]
    split <;> split <;> omega
  | false =>
    simp only [Bool.false_eq_true, and_false, if_false]
    omega

/-- **Adaptation follows the estimate.** Near the end of a complete playlist, in a session that is
to be closed and for a media item the index stays. Elsewhere it is in range, and it is the best one
that the estimate carries, except that a step up waits for the buffer, so it does not decrease when
the estimate increases. -/
theorem getBestBandwidthIndex_adapts (list : List BandwidthItem)
    (hsort : s.bandwidthList = sortM3uSessionBandwidth list) (ha : s.Adapting env) :
    getBestBandwidthIndex env s true = some (s, s.prevBandwidthIndex) ∧
    (s.nearEnd = some true ∨ 0 < s.isToClose →
      getBestBandwidthIndex env s false = some (s, s.prevBandwidthIndex)) ∧
    (s.nearEnd = some false → s.isToClose ≤ 0 →
      ∃ i, getBestBandwidthIndex env s false = some (s, i) ∧
        0 ≤ i ∧ i < s.bandwidthList.length ∧
        (0 < s.streamEstimateBps → s.streamEstimateBps < 2 ^ 28 →
          s.Adapted i ∧
          ∀ est, s.streamEstimateBps ≤ est → est < 2 ^ 28 →
            ∃ i', getBestBandwidthIndex env { s with streamEstimateBps := est } false =
              some ({ s with streamEstimateBps := est }, i') ∧ i ≤ i')) := by
  have hbest := getBestBandwidthIndex_adapting ha
  refine ⟨rfl, fun h => by rw [hbest, adaptIndex_keeps ha h]; rfl, fun hnear hopen => ?_⟩
  obtain ⟨i, hi, hrange⟩ := adaptIndex_range ha hnear hopen
  refine ⟨i, by rw [hbest, hi]; rfl, hrange.1, hrange.2, fun h0 h1 => ?_⟩
  obtain ⟨j, hj, hadapted⟩ := adaptIndex_adapted hsort ha hnear hopen h0 h1
  obtain rfl : i = j := Option.some.inj (hi.symm.trans hj)
  refine ⟨hadapted, fun est hle hest => ?_⟩
  have ha' : RateSession.Adapting env { s with streamEstimateBps := est } :=
    { ha with }
  obtain ⟨i', hi', hadapted'⟩ :=
    adaptIndex_adapted (s := { s with streamEstimateBps := est }) hsort ha' hnear hopen
      (h0.trans_le hle) hest
  refine ⟨i', by rw [getBestBandwidthIndex_adapting ha', hi']; rfl, hadapted.mono hadapted' hle⟩

end

/-- Variants of one and two megabits, the second one first. -/
def twoVariants : List BandwidthItem := [⟨0, 2000000, none⟩, ⟨1, 1000000, none⟩]

/-- The settings without a cap or a fixed quality. -/
def adaptive : RateEnv := ⟨1, -1, -1, 0⟩

/-- A session on the first variant, with a full buffer. -/
def rateSession (playlist : Option M3UParser) (est : Int) : RateSession :=
  ⟨sortM3uSessionBandwidth twoVariants, 0, playlist, 0, -1, 0, -1, 0, est, 30⟩

theorem rateSession_adapting (playlist : Option M3UParser) (est : Int) :
    (rateSession playlist est).Adapting adaptive where
  profile := by decide
  quality := by decide
  noCap := by decide
  noForce := (by decide : (-1 : Int) < 0)
  noFix := rfl
  noSeek := (by decide : (-1 : Int) ≤ 0)
  valid := (by decide : ∀ item ∈ sortM3uSessionBandwidth twoVariants, item.isInvalid = false)
  prev := (by decide : (0 : Int) ≤ 0 ∧ (0 : Int) < (sortM3uSessionBandwidth twoVariants).length)
  prevInt := (by decide : (0 : Int) < 2 ^ 31)

theorem getBestBandwidthIndex_up :
    ∃ i, getBestBandwidthIndex adaptive (rateSession none 3000000) false =
      some (rateSession none 3000000, i) ∧ (rateSession none 3000000).Adapted i := by
  obtain ⟨-, -, h⟩ := getBestBandwidthIndex_adapts (s := rateSession none 3000000)
    twoVariants rfl (rateSession_adapting none 3000000)
  obtain ⟨i, hi, -, -, hadapted⟩ := h rfl (by decide)
  exact ⟨i, hi, (hadapted (by decide) (by decide)).1⟩

/-- In the last segments the second variant is not used, though the estimate carries it. -/
theorem getBestBandwidthIndex_nearEnd :
    ∃ s, s.bandwidthList = sortM3uSessionBandwidth twoVariants ∧ s.Adapting adaptive ∧
      s.streamEstimateBps = 3000000 ∧ s.bufferLow = false ∧
      getBestBandwidthIndex adaptive s false = some (s, 0) ∧ s.Carries 1 ∧ ¬ s.Adapted 0 := by
  refine ⟨rateSession (some (onePlaylist (bytes "http://a/1.ts"))) 3000000, rfl,
    rateSession_adapting _ _, rfl, rfl, ?_, ?_, ?_⟩
  · rfl
  · exact ⟨⟨1, 2000000, none⟩, rfl, by decide⟩
  · rintro ⟨best, hbest, h⟩
    have hbest0 : best = 0 := by
      simpa [rateSession, RateSession.bufferLow, codecBufferLowFlag] using h.symm
    subst hbest0
    exact hbest.above 1 Nat.one_pos ⟨⟨1, 2000000, none⟩, rfl, by decide⟩

end VendorAmlogic.Hls
