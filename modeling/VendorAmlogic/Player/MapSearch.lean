import VendorAmlogic.Lib.CountRun
import VendorAmlogic.Player.CacheFile

/-!
# The search of a cache map

`map_searce_valid_bytes` of `player_cache_file.c` once more, where the map is a
list of bytes and a read that is not in it is `none`. It should count the bytes
from an offset on that lie in valid pages.
-/

namespace VendorAmlogic.MapSearch

open VendorAmlogic.Lib VendorAmlogic.CacheFile

/-! ## Model -/

section Model

variable (map : List Byte)

/-- `cache_map[i]`. -/
def readMap (i : Int) : Option Byte := if 0 ≤ i then map[i.toNat]? else none

/-- The search in bytes from `byte` on: the full bytes, of which it takes at most `left`, and the
pages it counts in the byte that ends it. -/
def searchBytes : Nat → Int → Option (Nat × Nat)
  | 0, byte =>
    if byte < map.length then do
      let mapInt ← readMap map byte
      some (0, lowOnes 32 mapInt.toNat)
    else some (0, 0)
  | left + 1, byte =>
    if byte < map.length then do
      let mapInt ← readMap map byte
      if mapInt = 0xff then do
        let r ← searchBytes left (byte + 1)
        some (r.1 + 1, r.2)
      else some (0, lowOnes 32 mapInt.toNat)
    else some (0, 0)

/-- `valid_pages` at `search_end`. -/
def validPages (cacheBits searchPages : Int) : Option Nat :=
  let cacheByte := cacheBits / 8
  let cacheBit := (cacheBits % 8).toNat
  let most := (1 + searchPages / 8).toNat
  if cacheBit ≠ 0 then do
    let mapInt ← readMap map cacheByte
    let valid := lowOnes 32 (mapInt.toNat >>> cacheBit)
    if 8 - cacheBit ≠ valid then some valid
    else do
      let r ← searchBytes map most (cacheByte + 1)
      some (valid + r.2 + 8 * r.1)
  else do
    let r ← searchBytes map most cacheByte
    some (r.2 + 8 * r.1)

/-- `cache_bits`: the page of an offset as an `int`. -/
def cacheBits (off : Int) : Int := i32 (off / 4096)

/-- `map_searce_valid_bytes`. -/
def mapSearceValidBytes (off maxSize : Int) : Option Int :=
  let searchPages := maxSize / 4096
  let pageOff := off % 4096
  if map.length < cacheBits off / 8 then some 0
  else do
    let valid ← validPages map (cacheBits off) searchPages
    if searchPages ≤ valid then some maxSize else some (max 0 (valid * 4096 - pageOff))

/-! ## The count -/

/-- `PAGE_VALID`, for the pages that have a bit in the map. -/
def pageValid (page : Int) : Bool :=
  match readMap map (page / 8) with
  | some b => b.getLsbD (page % 8).toNat
  | none => false

/-- How many bytes from `off` on, and no more than `maxSize`, lie in valid pages. -/
def countValid (off : Int) (maxSize : Nat) : Nat :=
  countRun (fun x => pageValid map (x / 4096) = true) maxSize off

/-- The search reads in the map only, and returns the count. -/
def Right (off : Int) (maxSize : Nat) : Prop :=
  mapSearceValidBytes map off maxSize = some (countValid map off maxSize : Int)

end Model

/-! ## One byte -/

section Byte

variable {map : List Byte} {n : Nat}

theorem readMap_nat (map : List Byte) (n : Nat) : readMap map n = map[n]? :=
  if_pos (Int.natCast_nonneg n)

theorem readMap_neg {i : Int} (h : i < 0) : readMap map i = none := if_neg (by omega)

theorem readMap_eq_some {i : Int} (h0 : 0 ≤ i) (h : i < map.length) :
    ∃ b, readMap map i = some b := by
  obtain ⟨n, rfl⟩ := Int.eq_ofNat_of_zero_le h0
  rw [readMap_nat]
  exact ⟨_, List.getElem?_eq_getElem (by omega)⟩

theorem pageValid_of_lt {i : Nat} (h : i < 8) {b : Byte} (hb : map[n]? = some b) :
    pageValid map (8 * n + i : Nat) = b.getLsbD i := by
  have hdiv : ((8 * n + i : Nat) : Int) / 8 = n := by omega
  have hmod : (((8 * n + i : Nat) : Int) % 8).toNat = i := by omega
  rw [pageValid, hdiv, hmod, readMap_nat, hb]

/-- No page behind the map is valid. -/
theorem pageValid_behind {page : Int} (h : 8 * (map.length : Int) ≤ page) :
    pageValid map page = false := by
  have hnone : readMap map (page / 8) = none := by
    obtain ⟨n, hn⟩ := Int.eq_ofNat_of_zero_le (show 0 ≤ page / 8 by omega)
    rw [hn, readMap_nat]
    exact List.getElem?_eq_none (by omega)
  rw [pageValid, hnone]

theorem not_testBit_lowOnes {bits m : Nat} (h : m < 2 ^ bits) :
    m.testBit (lowOnes bits m) = false := by
  induction bits generalizing m with
  | zero =>
    obtain rfl : m = 0 := by omega
    rfl
  | succ bits ih =>
    rw [lowOnes]
    split
    · rw [Nat.testBit_succ]
      exact ih (by rw [Nat.pow_succ] at h; omega)
    · rename_i heven
      rw [Nat.testBit_zero]
      exact decide_eq_false heven

/-- The ones of a byte from a bit on. -/
theorem byte_ones (b : Byte) {bit : Nat} (hbit : bit < 8) :
    (∀ i, i < lowOnes 32 (b.toNat >>> bit) → bit + i < 8 ∧ b.getLsbD (bit + i) = true) ∧
      b.getLsbD (bit + lowOnes 32 (b.toNat >>> bit)) = false ∧
      bit + lowOnes 32 (b.toNat >>> bit) ≤ 8 := by
  have hset (i : Nat) (hi : i < lowOnes 32 (b.toNat >>> bit)) : b.getLsbD (bit + i) = true := by
    have htest := testBit_of_lt_lowOnes hi
    rwa [Nat.testBit_shiftRight] at htest
  have hin (i : Nat) (hi : i < lowOnes 32 (b.toNat >>> bit)) : bit + i < 8 :=
    BitVec.lt_of_getLsbD (hset i hi)
  refine ⟨fun i hi => ⟨hin i hi, hset i hi⟩, ?_, ?_⟩
  · have hlt : b.toNat >>> bit < 2 ^ 32 := by
      have hb := b.isLt
      rw [Nat.shiftRight_eq_div_pow]
      exact lt_of_le_of_lt (Nat.div_le_self _ _) (by omega)
    have htest := not_testBit_lowOnes hlt
    rwa [Nat.testBit_shiftRight] at htest
  · by_contra hgt
    have hlast := hin (8 - bit) (by omega)
    omega

theorem byte_full {b : Byte} (h : lowOnes 32 b.toNat = 8) : b = 0xff := by
  have hones := (byte_ones b (show 0 < 8 by decide)).1
  refine BitVec.eq_of_getLsbD_eq fun i hi => ?_
  have hset := (hones i (by rw [Nat.shiftRight_zero, h]; exact hi)).2
  rw [Nat.zero_add] at hset
  rw [hset]
  interval_cases i <;> rfl

end Byte

/-! ## The pages counted -/

section Pages

variable {map : List Byte} {n : Nat}

/-- The byte that ends the search. -/
theorem lastByte_spec {b : Byte} (hb : map[n]? = some b) :
    (∀ i, i < lowOnes 32 b.toNat → pageValid map (8 * n + i : Nat) = true) ∧
      (b ≠ 0xff → pageValid map (8 * n + lowOnes 32 b.toNat : Nat) = false) := by
  obtain ⟨hset, hclear, hle⟩ := byte_ones b (show 0 < 8 by decide)
  simp only [Nat.shiftRight_zero, Nat.zero_add] at hset hclear hle
  refine ⟨fun i hi => ?_, fun hne => ?_⟩
  · rw [pageValid_of_lt (hset i hi).1 hb]
    exact (hset i hi).2
  · have hlt : lowOnes 32 b.toNat < 8 := lt_of_le_of_ne hle fun h => hne (byte_full h)
    rwa [pageValid_of_lt hlt hb]

theorem searchBytes_spec (map : List Byte) (left n : Nat) :
    ∃ r, searchBytes map left n = some r ∧
      (∀ i, i < r.2 + 8 * r.1 → pageValid map (8 * n + i : Nat) = true) ∧
      (8 * left ≤ r.2 + 8 * r.1 ∨ pageValid map (8 * n + (r.2 + 8 * r.1) : Nat) = false) := by
  have hbehind (left n : Nat) (hn : ¬ (n : Int) < map.length) :
      ∃ r, some ((0, 0) : Nat × Nat) = some r ∧
        (∀ i, i < r.2 + 8 * r.1 → pageValid map (8 * n + i : Nat) = true) ∧
        (8 * left ≤ r.2 + 8 * r.1 ∨ pageValid map (8 * n + (r.2 + 8 * r.1) : Nat) = false) :=
    ⟨_, rfl, fun i hi => absurd hi (Nat.not_lt_zero i), .inr (pageValid_behind (by omega))⟩
  induction left generalizing n with
  | zero =>
    rw [searchBytes]
    by_cases hn : (n : Int) < map.length
    · obtain ⟨b, hb⟩ := readMap_eq_some (Int.natCast_nonneg n) hn
      rw [if_pos hn, hb]
      rw [readMap_nat] at hb
      exact ⟨(0, lowOnes 32 b.toNat), rfl, (lastByte_spec hb).1, .inl (Nat.zero_le _)⟩
    · rw [if_neg hn]
      exact hbehind 0 n hn
  | succ left ih =>
    rw [searchBytes]
    by_cases hn : (n : Int) < map.length
    · obtain ⟨b, hb⟩ := readMap_eq_some (Int.natCast_nonneg n) hn
      rw [if_pos hn, hb]
      rw [readMap_nat] at hb
      obtain ⟨hset, hclear⟩ := lastByte_spec hb
      by_cases hfull : b = 0xff
      · obtain ⟨r, hr, hall, hend⟩ := ih (n + 1)
        have hbits : lowOnes 32 b.toNat = 8 := by
          rw [hfull]
          rfl
        refine ⟨(r.1 + 1, r.2), ?_, fun i hi => ?_, ?_⟩
        · show (if b = 0xff then _ else _) = _
          rw [if_pos hfull, show (n : Int) + 1 = ((n + 1 : Nat) : Int) from rfl, hr]
          rfl
        · by_cases h8 : i < 8
          · exact hset i (by omega)
          · have h := hall (i - 8) (by dsimp only at hi; omega)
            rwa [show 8 * (n + 1) + (i - 8) = 8 * n + i by omega] at h
        · refine hend.imp (fun h => by dsimp only; omega) fun h => ?_
          rwa [show 8 * (n + 1) + (r.2 + 8 * r.1) = 8 * n + (r.2 + 8 * (r.1 + 1)) by omega] at h
      · refine ⟨(0, lowOnes 32 b.toNat), ?_, hset, .inr (hclear hfull)⟩
        show (if b = 0xff then _ else _) = _
        rw [if_neg hfull]
    · rw [if_neg hn]
      exact hbehind (left + 1) n hn

/-- The pages that are counted are a run, unless they are as many as are looked for. -/
theorem validPages_spec (map : List Byte) (page : Nat)
    (hin : page / 8 < map.length ∨ page % 8 = 0) (s : Nat) :
    ∃ m, validPages map page s = some m ∧ (∀ i, i < m → pageValid map (page + i : Nat) = true) ∧
      (s < m ∨ pageValid map (page + m : Nat) = false) := by
  have hbyte : (page : Int) / 8 = ((page / 8 : Nat) : Int) := rfl
  have hbit : ((page : Int) % 8).toNat = page % 8 := rfl
  have hmost : (1 + (s : Int) / 8).toNat = 1 + s / 8 := by omega
  have hlt : page % 8 < 8 := Nat.mod_lt _ (by decide)
  unfold validPages
  rw [hbyte, hbit, hmost]
  dsimp only
  by_cases h0 : page % 8 = 0
  · obtain ⟨r, hr, hall, hend⟩ := searchBytes_spec map (1 + s / 8) (page / 8)
    have hpage (i : Nat) : 8 * (page / 8) + i = page + i := by omega
    simp only [hpage] at hall hend
    rw [if_neg (by omega), hr]
    exact ⟨_, rfl, hall, hend.imp (by omega) id⟩
  · obtain ⟨b, hb⟩ := readMap_eq_some (Int.natCast_nonneg (page / 8))
      (show ((page / 8 : Nat) : Int) < map.length by omega)
    obtain ⟨hset, hclear, hle⟩ := byte_ones b hlt
    rw [if_pos h0, hb]
    rw [readMap_nat] at hb
    have hpage (i : Nat) : 8 * (page / 8) + (page % 8 + i) = page + i := by omega
    have hset' (i : Nat) (hi : i < lowOnes 32 (b.toNat >>> (page % 8))) :
        pageValid map (page + i : Nat) = true := by
      rw [← hpage, pageValid_of_lt (hset i hi).1 hb]
      exact (hset i hi).2
    by_cases hones : 8 - page % 8 = lowOnes 32 (b.toNat >>> (page % 8))
    · obtain ⟨r, hr, hall, hend⟩ := searchBytes_spec map (1 + s / 8) (page / 8 + 1)
      have hnext (i : Nat) : 8 * (page / 8 + 1) + i = page + (8 - page % 8 + i) := by omega
      simp only [hnext] at hall hend
      refine ⟨lowOnes 32 (b.toNat >>> (page % 8)) + r.2 + 8 * r.1, ?_, fun i hi => ?_, ?_⟩
      · show (if _ then _ else _) = _
        rw [if_neg (not_not.mpr hones),
          show ((page / 8 : Nat) : Int) + 1 = ((page / 8 + 1 : Nat) : Int) from rfl, hr]
        rfl
      · by_cases hi' : i < 8 - page % 8
        · exact hset' i (by omega)
        · have h := hall (i - (8 - page % 8)) (by omega)
          rwa [show 8 - page % 8 + (i - (8 - page % 8)) = i by omega] at h
      · refine hend.imp (fun h => by omega) fun h => ?_
        rwa [hones, ← Nat.add_assoc (lowOnes ..)] at h
    · refine ⟨lowOnes 32 (b.toNat >>> (page % 8)), ?_, hset', .inr ?_⟩
      · show (if _ then _ else _) = _
        rw [if_pos hones]
      · rwa [← hpage, pageValid_of_lt (by omega) hb]

end Pages

/-! ## The search -/

/-- As many pages from `page` on are valid as `maxSize` has whole pages. -/
def Enough (map : List Byte) (page : Int) (maxSize : Nat) : Prop :=
  page / 8 ≤ map.length ∧ ∀ i : Nat, i < maxSize / 4096 → pageValid map (page + i) = true

/-- As many valid pages stand one behind the other from `a` on as from `b` on. -/
def SameRuns (map : List Byte) (a b : Int) : Prop :=
  ∀ n : Nat, (∀ i : Nat, i < n → pageValid map (a + i) = true) ↔
    ∀ i : Nat, i < n → pageValid map (b + i) = true

/-- The page is not negative and not within the byte behind the map. If the whole pages of `maxSize`
are valid, so are the pages of all bytes asked for; if not, the page has not been cut by the `int`,
or that does not show. -/
structure Exact (map : List Byte) (off : Int) (maxSize : Nat) : Prop where
  nonneg : 0 ≤ cacheBits off
  inside : cacheBits off / 8 = map.length → cacheBits off % 8 = 0
  full : Enough map (cacheBits off) maxSize →
    ∀ i : Nat, i < maxSize → pageValid map ((off + i) / 4096) = true
  uncut : ¬ Enough map (cacheBits off) maxSize →
    cacheBits off = off / 4096 ∨ maxSize = 0 ∨ SameRuns map (cacheBits off) (off / 4096)

section Search

variable {map : List Byte} {off : Int} {maxSize : Nat}

theorem validPages_outside (map : List Byte) (page : Int) (s : Nat)
    (h : page < 0 ∨ page / 8 = map.length ∧ page % 8 ≠ 0) : validPages map page s = none := by
  have hread : page < 0 ∨ page % 8 ≠ 0 → readMap map (page / 8) = none := by
    intro _
    rcases h with hneg | ⟨hlen, -⟩
    · exact readMap_neg (by omega)
    · rw [hlen, readMap_nat]
      exact List.getElem?_eq_none le_rfl
  unfold validPages
  dsimp only
  by_cases h0 : (page % 8).toNat = 0
  · have hneg : page < 0 := h.resolve_right (by omega)
    have hmost : (1 + (s : Int) / 8).toNat = s / 8 + 1 := by omega
    rw [if_neg (not_not.mpr h0), hmost, searchBytes, if_pos (by omega), hread (.inl hneg)]
    rfl
  · rw [if_pos h0, hread (by omega)]
    rfl

theorem exists_run (map : List Byte) (page : Int) :
    ∃ m, RunOf (fun x => pageValid map x = true) page m :=
  exists_runOf (fun x hx => by rw [pageValid_behind hx]; exact Bool.false_ne_true) page

theorem run_behind {page : Int} {m : Nat} (h : RunOf (fun x => pageValid map x = true) page m)
    (hpage : 8 * (map.length : Int) ≤ page) : m = 0 := by
  by_contra hne
  have hfirst := h.holds 0 (Nat.pos_of_ne_zero hne)
  rw [pageValid_behind (by omega)] at hfirst
  exact Bool.false_ne_true hfirst

theorem countValid_eq {m : Nat} (h : RunOf (fun x => pageValid map x = true) (off / 4096) m)
    (maxSize : Nat) :
    countValid map off maxSize = min maxSize (m * 4096 - (off % 4096).toNat) := by
  have hoff : off / 4096 * (4096 : Nat) + (off % 4096).toNat = off := by omega
  have hrun := h.blocks (P := 4096) (r := (off % 4096).toNat) (by omega)
  rw [hoff] at hrun
  exact hrun.countRun_eq maxSize

/-- The search by the run of valid pages it starts in. -/
theorem search_eq {m : Nat} (h0 : 0 ≤ cacheBits off)
    (hbyte : cacheBits off / 8 = map.length → cacheBits off % 8 = 0)
    (h : RunOf (fun x => pageValid map x = true) (cacheBits off) m) (maxSize : Nat) :
    mapSearceValidBytes map off maxSize =
      some (if cacheBits off / 8 ≤ map.length ∧ maxSize / 4096 ≤ m then (maxSize : Int)
        else (m * 4096 - (off % 4096).toNat : Nat)) := by
  unfold mapSearceValidBytes
  dsimp only
  by_cases hbehind : (map.length : Int) < cacheBits off / 8
  · rw [if_pos hbehind, if_neg (by omega), run_behind h (by omega), Nat.zero_mul, Nat.zero_sub]
    rfl
  · obtain ⟨page, hpage⟩ := Int.eq_ofNat_of_zero_le h0
    rw [hpage] at hbehind hbyte h ⊢
    obtain ⟨v, hv, hall, hend⟩ := validPages_spec map page (by omega) (maxSize / 4096)
    have hle : v ≤ m := (h.holds_iff v).mp fun i hi => hall i hi
    have hcount : maxSize / 4096 < v ∨ v = m := by
      refine hend.imp id fun hclear => ?_
      by_contra hne
      have hset := h.holds v (by omega)
      rw [← Int.natCast_add, hclear] at hset
      exact Bool.false_ne_true hset
    have hdiv : ((maxSize : Int) / 4096) = ((maxSize / 4096 : Nat) : Int) := rfl
    rw [if_neg hbehind, hdiv, hv]
    show (if _ then _ else _) = _
    by_cases hs : maxSize / 4096 ≤ v
    · rw [if_pos (by omega), if_pos (by omega)]
    · rw [if_neg (by omega), if_neg (by omega)]
      congr 1
      omega

theorem sameRuns_iff {a b : Int} {m m' : Nat} (h : RunOf (fun x => pageValid map x = true) a m)
    (h' : RunOf (fun x => pageValid map x = true) b m') : SameRuns map a b ↔ m = m' := by
  unfold SameRuns
  simp only [h.holds_iff, h'.holds_iff]
  refine ⟨fun hall => ?_, fun heq n => by rw [heq]⟩
  exact le_antisymm ((hall m).mp le_rfl) ((hall m').mpr le_rfl)

/-- **The search** counts the valid bytes exactly when the first page it takes is right, and the
bytes behind the whole pages of `maxSize` are valid where these are. -/
theorem search_right_iff (map : List Byte) (off : Int) (maxSize : Nat) :
    Right map off maxSize ↔ Exact map off maxSize := by
  by_cases hin : 0 ≤ cacheBits off ∧ (cacheBits off / 8 = map.length → cacheBits off % 8 = 0)
  · obtain ⟨h0, hbyte⟩ := hin
    obtain ⟨m, hm⟩ := exists_run map (cacheBits off)
    obtain ⟨m', hm'⟩ := exists_run map (off / 4096)
    have hcount := countValid_eq hm' maxSize
    have hall : (∀ i : Nat, i < maxSize → pageValid map ((off + i) / 4096) = true) ↔
        countValid map off maxSize = maxSize :=
      (countRun_eq_self_iff (p := fun x => pageValid map (x / 4096) = true)).symm
    have henough : Enough map (cacheBits off) maxSize ↔
        cacheBits off / 8 ≤ map.length ∧ maxSize / 4096 ≤ m :=
      and_congr_right fun _ => hm.holds_iff _
    unfold Right
    rw [search_eq h0 hbyte hm, Option.some_inj]
    by_cases he : cacheBits off / 8 ≤ map.length ∧ maxSize / 4096 ≤ m
    · rw [if_pos he, Nat.cast_inj]
      refine ⟨fun h => ⟨h0, hbyte, fun _ => hall.mpr h.symm, fun hne => ?_⟩,
        fun h => (hall.mp (h.full (henough.mpr he))).symm⟩
      exact absurd (henough.mpr he) hne
    · have hbehind : (map.length : Int) < cacheBits off / 8 → m = 0 := fun hlt =>
        run_behind hm (by omega)
      have hvalue : m * 4096 - (off % 4096).toNat = countValid map off maxSize ↔
          maxSize = 0 ∨ m = m' := by
        rw [hcount]
        omega
      have hcut : cacheBits off = off / 4096 → m = m' := by
        intro heq
        rw [heq] at hm
        exact (sameRuns_iff hm hm').mp fun n => Iff.rfl
      rw [if_neg he, Nat.cast_inj, hvalue]
      constructor
      · intro h
        refine ⟨h0, hbyte, fun hen => absurd (henough.mp hen) he, fun _ => .inr ?_⟩
        exact h.imp id (sameRuns_iff hm hm').mpr
      · intro h
        rcases h.uncut (fun hen => he (henough.mp hen)) with h | h | h
        · exact .inr (hcut h)
        · exact .inl h
        · exact .inr ((sameRuns_iff hm hm').mp h)
  · have hnone : mapSearceValidBytes map off maxSize = none := by
      have hout := validPages_outside map (cacheBits off) (maxSize / 4096) (by omega)
      have hdiv : (maxSize : Int) / 4096 = ((maxSize / 4096 : Nat) : Int) := rfl
      unfold mapSearceValidBytes
      dsimp only
      rw [if_neg (by omega), hdiv, hout]
      rfl
    unfold Right
    rw [hnone]
    exact iff_of_false (Option.some_ne_none _).symm fun h => hin ⟨h.nonneg, h.inside⟩

end Search

/-- A byte of an invalid page, and the byte behind the map. -/
theorem not_right_search : ¬ Right [0] 0 100 ∧ ¬ Right [0xff] (9 * 4096) 4096 := by
  unfold Right
  decide

/-! ## The cache file -/

/-- The memory from `cache_map` on has the map. -/
def Holds (mem : Int → Byte) (map : List Byte) : Prop :=
  ∀ i b, readMap map i = some b → mem i = b

section CacheFile

variable {mem : Int → Byte} {map : List Byte}

theorem searchBytes_mem (hmem : Holds mem map) {left : Nat} {byte : Int} {r : Nat × Nat}
    (h : searchBytes map left byte = some r) :
    CacheFile.searchBytes mem map.length left byte = r := by
  induction left generalizing byte r with
  | zero =>
    rw [searchBytes] at h
    rw [CacheFile.searchBytes]
    by_cases hb : byte < map.length
    · rw [if_pos hb] at h ⊢
      obtain ⟨b, hread, hr⟩ := Option.bind_eq_some_iff.mp h
      rw [hmem byte b hread]
      exact Option.some.inj hr
    · rw [if_neg hb] at h ⊢
      exact Option.some.inj h
  | succ left ih =>
    rw [searchBytes] at h
    rw [CacheFile.searchBytes]
    by_cases hb : byte < map.length
    · rw [if_pos hb] at h ⊢
      obtain ⟨b, hread, hr⟩ := Option.bind_eq_some_iff.mp h
      rw [hmem byte b hread]
      by_cases hfull : b = 0xff
      · rw [if_pos hfull] at hr ⊢
        obtain ⟨r', hr', heq⟩ := Option.bind_eq_some_iff.mp hr
        rw [ih hr']
        exact Option.some.inj heq
      · rw [if_neg hfull] at hr ⊢
        exact Option.some.inj hr
    · rw [if_neg hb] at h ⊢
      exact Option.some.inj h

theorem validPages_mem (hmem : Holds mem map) {page searchPages : Int} {m : Nat}
    (h : validPages map page searchPages = some m) :
    CacheFile.validPages mem map.length page searchPages = m := by
  unfold validPages at h
  unfold CacheFile.validPages
  dsimp only at h ⊢
  by_cases h0 : (page % 8).toNat ≠ 0
  · rw [if_pos h0] at h ⊢
    obtain ⟨b, hread, hr⟩ := Option.bind_eq_some_iff.mp h
    rw [hmem _ b hread]
    by_cases hones : 8 - (page % 8).toNat ≠ lowOnes 32 (b.toNat >>> (page % 8).toNat)
    · rw [if_pos hones] at hr ⊢
      exact Option.some.inj hr
    · rw [if_neg hones] at hr ⊢
      obtain ⟨r, hr', heq⟩ := Option.bind_eq_some_iff.mp hr
      rw [searchBytes_mem hmem hr']
      exact Option.some.inj heq
  · rw [if_neg h0] at h ⊢
    obtain ⟨r, hr, heq⟩ := Option.bind_eq_some_iff.mp h
    rw [searchBytes_mem hmem hr]
    exact Option.some.inj heq

/-- Where the search of the list reads in it, the cache file's search finds the same. -/
theorem mapSearceValidBytes_mem (hmem : Holds mem map) {off : Nat} {maxSize n : Int}
    (h : mapSearceValidBytes map off maxSize = some n) :
    CacheFile.mapSearceValidBytes mem map.length off maxSize = n := by
  have hbits : cacheBits off = i32 ((off / 4096 : Nat) : Int) := rfl
  have hoff : ((off % 4096 : Nat) : Int) = (off : Int) % 4096 := rfl
  unfold mapSearceValidBytes at h
  unfold CacheFile.mapSearceValidBytes
  rw [hbits] at h
  dsimp only at h ⊢
  rw [hoff]
  by_cases hbehind : (map.length : Int) < i32 ((off / 4096 : Nat) : Int) / 8
  · rw [if_pos hbehind] at h ⊢
    exact Option.some.inj h
  · rw [if_neg hbehind] at h ⊢
    obtain ⟨v, hv, hr⟩ := Option.bind_eq_some_iff.mp h
    rw [validPages_mem hmem hv]
    by_cases hs : maxSize / 4096 ≤ v
    · rw [if_pos hs] at hr ⊢
      exact Option.some.inj hr
    · rw [if_neg hs] at hr ⊢
      exact Option.some.inj hr

end CacheFile

end VendorAmlogic.MapSearch
