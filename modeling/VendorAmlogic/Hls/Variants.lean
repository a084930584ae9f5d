import Mathlib.Tactic
import VendorAmlogic.Hls.Playlist

/-!
# The choice of a variant

`_choose_bandwidth_and_init_playlist` of `hls_main/hls_m3ulivesession.c` for a
session with variants, without `media.amplayer.hlsv5_support`. The playlists of
the variants are fetched one by one, and the longest one becomes the playlist
of the session. A variant with fewer segments than that is marked invalid; but
when a longer one comes, only the playlist of the session is marked, and not the
other ones that were as long as it.
-/

namespace VendorAmlogic.Hls

open VendorAmlogic.Lib

/-! ## The source -/

/-- A playlist with its field `is_invalid`. -/
structure Fetched where
  parser : M3UParser
  isInvalid : Bool

/-- The settings `libplayer.hls.fixed_bw` and `media.amplayer.quality`, whether the session is
interrupted before a fetch, and what `_fetch_play_list` returns for a variant. -/
structure ChooseEnv where
  bandwidthItemNum : Nat
  fixedBw : Int
  bwquality : Int
  interrupted : Nat → Bool
  fetch : Nat → Option M3UParser

/-- The playlists in `bandwidth_list`, and the one that is `playlist` of the session, by its index
`prev_bandwidth_index`. -/
structure Choice where
  playlists : Nat → Option Fetched
  chosen : Option Nat

/-- `m3u_get_node_num` of a variant. -/
def Choice.nodeNum (c : Choice) (index : Nat) : Int :=
  match c.playlists index with
  | some f => f.parser.baseNodeNum
  | none => -2

/-- `m3u_set_invalid` of a variant. -/
def Choice.setInvalid (c : Choice) (index : Nat) : Choice where
  playlists := Function.update c.playlists index
    ((c.playlists index).map fun f => { f with isInvalid := true })
  chosen := c.chosen

/-- A playlist becomes the one of its variant, and of the session when that has none. -/
def Choice.store (c : Choice) (bandwidthIndex index : Nat) (p : M3UParser) : Choice where
  playlists := Function.update c.playlists index (some ⟨p, false⟩)
  chosen := if index = bandwidthIndex then some index else c.chosen.or (some index)

/-- The invalid check. -/
def Choice.check (c : Choice) (index : Nat) (p : M3UParser) : Choice :=
  match c.chosen with
  | none => c
  | some ref =>
    if p.isComplete then
      if c.nodeNum index < c.nodeNum ref then c.setInvalid index
      else if c.nodeNum index > c.nodeNum ref then { c.setInvalid ref with chosen := some index }
      else c
    else c

/-- What a playlist does that was fetched. -/
def Choice.arrive (bandwidthIndex : Nat) (c : Choice) (index : Nat) (p : M3UParser) : Choice :=
  (c.store bandwidthIndex index p).check index p

/-- Whether the loop is left after a playlist. -/
def ChooseEnv.stops (env : ChooseEnv) (p : M3UParser) : Bool :=
  if p.isComplete then
    if p.durationUs < 600 * 1000 * 1000 then false
    else decide (env.fixedBw > 0 ∨ env.bwquality = 0 ∨ env.bwquality = 1 ∨ env.bwquality = 2)
  else true

/-- The loop over the variants; the result -1 is the interrupt. -/
def chooseLoop (env : ChooseEnv) (bandwidthIndex : Nat) : List Nat → Choice → Int × Choice
  | [], c => (0, c)
  | index :: rest, c =>
    if env.interrupted index then (-1, c)
    else
      match env.fetch index with
      | none => chooseLoop env bandwidthIndex rest c
      | some p =>
        let c := c.arrive bandwidthIndex index p
        if env.stops p then (0, c) else chooseLoop env bandwidthIndex rest c

/-- The variant that is fetched first. -/
def ChooseEnv.firstIndex (env : ChooseEnv) : Nat :=
  let last := env.bandwidthItemNum - 1
  let index := if env.fixedBw ≥ 0 then min env.fixedBw.toNat last else 0
  let index := if env.bwquality = 0 ∨ env.bwquality = 2 then last else index
  if env.bwquality = 1 then 0 else index

/-- The result, by the playlist of the session. -/
def Choice.result (c : Choice) : Int :=
  match c.chosen.bind c.playlists with
  | none => -1
  | some f =>
    if f.parser.baseNodeNum = 0 then -1
    else if (f.parser.getNodeByIndex 0).isNone then -1
    else 0

/-- The variants that are fetched, in order. -/
def ChooseEnv.indices (env : ChooseEnv) : List Nat :=
  List.range' env.firstIndex (env.bandwidthItemNum - env.firstIndex)

/-- `_choose_bandwidth_and_init_playlist`, from a session without a playlist. -/
def chooseBandwidthAndInitPlaylist (env : ChooseEnv) : Int × Choice :=
  if env.bandwidthItemNum = 0 then (-1, ⟨fun _ => none, none⟩)
  else
    let r := chooseLoop env env.firstIndex env.indices ⟨fun _ => none, none⟩
    if r.1 ≠ 0 then r else (r.2.result, r.2)

/-! ## Numbers of segments -/

/-- No number comes a second time, as the greatest so far, before a greater one. -/
def NoLostTie (ns : List Int) : Prop :=
  ∀ pre n post, ns = pre ++ n :: post → n ∈ pre → (∃ m ∈ post, n < m) → ∃ x ∈ pre, n < x

section
variable {ns : List Int} {r m : Int}

theorem noLostTie_singleton (n : Int) : NoLostTie [n] := by
  rintro pre x post heq hx ⟨y, hy, -⟩
  have hlen := congrArg List.length heq
  have hpre := List.length_pos_of_mem hx
  rw [List.length_singleton, List.length_append, List.length_cons] at hlen
  omega

theorem NoLostTie.of_append (h : NoLostTie (ns ++ [m])) : NoLostTie ns := by
  rintro pre n post rfl hn ⟨y, hy, hlt⟩
  exact h pre n (post ++ [m]) (by rw [List.append_assoc, List.cons_append]) hn
    ⟨y, List.mem_append_left _ hy, hlt⟩

/-- The places of a list with one more number. -/
theorem concat_split {pre post : List Int} {n : Int} (h : ns ++ [m] = pre ++ n :: post) :
    post = [] ∨ ∃ post', post = post' ++ [m] ∧ ns = pre ++ n :: post' := by
  rcases List.eq_nil_or_concat post with rfl | ⟨post', y, rfl⟩
  · exact .inl rfl
  · rw [List.concat_eq_append, ← List.cons_append, ← List.append_assoc] at h
    obtain ⟨hns, hy⟩ := List.append_inj' h rfl
    rw [List.concat_eq_append, ← List.cons.inj hy |>.1]
    exact .inr ⟨post', rfl, hns⟩

theorem noLostTie_append_le (hr : r ∈ ns) (hm : m ≤ r) : NoLostTie (ns ++ [m]) ↔ NoLostTie ns := by
  refine ⟨NoLostTie.of_append, fun h pre n post heq hn hlater => ?_⟩
  obtain ⟨y, hy, hlt⟩ := hlater
  rcases concat_split heq with rfl | ⟨post', rfl, rfl⟩
  · cases hy
  rcases List.mem_append.mp hy with hy | hy
  · exact h pre n post' rfl hn ⟨y, hy, hlt⟩
  · -- the new number is not above `r`, which is in the list already
    rw [List.mem_singleton.mp hy] at hlt
    rcases List.mem_append.mp hr with hr | hr
    · exact ⟨r, hr, by omega⟩
    · rcases List.mem_cons.mp hr with rfl | hr
      · omega
      · exact h pre n post' rfl hn ⟨r, hr, by omega⟩

/-- A number that is there twice has a second place. -/
theorem exists_second (h : 2 ≤ ns.count r) : ∃ pre post, ns = pre ++ r :: post ∧ r ∈ pre := by
  have hmem : r ∈ ns := List.count_pos_iff.mp (by omega)
  obtain ⟨a, b, rfl⟩ := List.append_of_mem hmem
  rw [List.count_append, List.count_cons_self] at h
  by_cases ha : r ∈ a
  · exact ⟨a, b, rfl, ha⟩
  · rw [List.count_eq_zero_of_not_mem ha] at h
    obtain ⟨b1, b2, rfl⟩ := List.append_of_mem (List.count_pos_iff.mp (show 0 < b.count r by omega))
    exact ⟨a ++ r :: b1, b2, by simp, by simp⟩

theorem noLostTie_append_gt (hr : r ∈ ns) (hmax : ∀ x ∈ ns, x ≤ r) (hm : r < m) :
    NoLostTie (ns ++ [m]) ↔ NoLostTie ns ∧ ns.count r < 2 := by
  constructor
  · intro h
    refine ⟨h.of_append, Nat.lt_of_not_le fun hcount => ?_⟩
    obtain ⟨pre, post, rfl, hpre⟩ := exists_second hcount
    obtain ⟨x, hx, hlt⟩ := h pre r (post ++ [m]) (by simp) hpre ⟨m, by simp, hm⟩
    have := hmax x (List.mem_append_left _ hx)
    omega
  · rintro ⟨h, hcount⟩ pre n post heq hn hlater
    rcases concat_split heq with rfl | ⟨post', rfl, rfl⟩
    · obtain ⟨y, hy, -⟩ := hlater
      cases hy
    by_contra hnone
    -- else `n` would be the greatest number, and there twice
    have hpre : ∀ x ∈ pre, x ≤ n := fun x hx => Int.not_lt.mp fun hlt => hnone ⟨x, hx, hlt⟩
    have hpost : ∀ x ∈ post', x ≤ n := fun x hx =>
      Int.not_lt.mp fun hlt => hnone (h pre n post' rfl hn ⟨x, hx, hlt⟩)
    have hrn : r = n := by
      refine Int.le_antisymm ?_ (hmax n (by simp))
      rcases List.mem_append.mp hr with hr | hr
      · exact hpre r hr
      · rcases List.mem_cons.mp hr with rfl | hr
        · exact Int.le_refl r
        · exact hpost r hr
    subst hrn
    rw [List.count_append, List.count_cons_self] at hcount
    have := List.count_pos_iff.mpr hn
    omega

end

/-! ## Valid variants -/

/-- The number of segments of a variant, when that is not marked. -/
def Choice.validNum (c : Choice) (index : Nat) : Option Int :=
  (c.playlists index).bind fun f => if f.isInvalid then none else some f.parser.baseNodeNum

/-- The playlist of the session is not marked, and every variant that is not marked has the same
number of segments. -/
def Choice.Aligned (c : Choice) : Prop :=
  ∃ i r, c.chosen = some i ∧ c.validNum i = some r ∧ ∀ j n, c.validNum j = some n → n = r

section
variable {c : Choice} {index i j : Nat} {p : M3UParser} {r : Int} {first : Nat}

theorem validNum_store :
    (c.store first index p).validNum = Function.update c.validNum index (some p.baseNodeNum) := by
  funext k
  by_cases hk : k = index
  · subst hk
    simp [Choice.validNum, Choice.store]
  · simp [Choice.validNum, Choice.store, hk]

theorem validNum_setInvalid :
    (c.setInvalid index).validNum = Function.update c.validNum index none := by
  funext k
  by_cases hk : k = index
  · subst hk
    cases h : c.playlists k with
    | none => simp [Choice.validNum, Choice.setInvalid, h]
    | some f => simp [Choice.validNum, Choice.setInvalid, h]
  · simp [Choice.validNum, Choice.setInvalid, hk]

theorem nodeNum_of_validNum (h : c.validNum i = some r) : c.nodeNum i = r := by
  unfold Choice.validNum at h
  unfold Choice.nodeNum
  obtain ⟨f, hf, h⟩ := Option.bind_eq_some_iff.mp h
  rw [hf]
  split at h
  · cases h
  · exact Option.some.inj h

theorem playlists_arrive (hj : j ≠ index) (h : c.playlists j = none) :
    (c.arrive first index p).playlists j = none := by
  have hstore : (c.store first index p).playlists j = none := by
    simp [Choice.store, hj, h]
  have hmark : ∀ {c : Choice} {k : Nat}, c.playlists j = none → (c.setInvalid k).playlists j = none := by
    intro c k hc
    by_cases hk : j = k
    · subst hk
      simp [Choice.setInvalid, hc]
    · simp [Choice.setInvalid, hk, hc]
  unfold Choice.arrive Choice.check
  split
  · exact hstore
  · split
    · split
      · exact hmark hstore
      · split
        · exact hmark hstore
        · exact hstore
    · exact hstore

/-- **A playlist that is complete** is marked when it is shorter than the one of the session, and
takes its place when it is longer. -/
theorem arrive_cases (hc : c.chosen = some i) (hi : c.validNum i = some r) (hne : index ≠ i)
    (hfirst : index ≠ first) (hnew : c.playlists index = none) (hp : p.isComplete = true) :
    (p.baseNodeNum < r ∧ (c.arrive first index p).chosen = some i ∧
        (c.arrive first index p).validNum = c.validNum) ∨
      (p.baseNodeNum = r ∧ (c.arrive first index p).chosen = some i ∧
        (c.arrive first index p).validNum = Function.update c.validNum index (some r)) ∨
      (r < p.baseNodeNum ∧ (c.arrive first index p).chosen = some index ∧
        (c.arrive first index p).validNum =
          Function.update (Function.update c.validNum index (some p.baseNodeNum)) i none) := by
  have hchosen : (c.store first index p).chosen = some i := by
    simp [Choice.store, hfirst, hc]
  have hindex : (c.store first index p).nodeNum index = p.baseNodeNum :=
    nodeNum_of_validNum (by rw [validNum_store, Function.update_self])
  have href : (c.store first index p).nodeNum i = r :=
    nodeNum_of_validNum (by rw [validNum_store, Function.update_of_ne (Ne.symm hne), hi])
  have hnone : c.validNum index = none := by rw [Choice.validNum, hnew]; rfl
  unfold Choice.arrive Choice.check
  rw [hchosen]
  dsimp only
  rw [if_pos hp, hindex, href]
  rcases Int.lt_trichotomy p.baseNodeNum r with hlt | heq | hgt
  · rw [if_pos hlt]
    refine .inl ⟨hlt, hchosen, ?_⟩
    rw [validNum_setInvalid, validNum_store, Function.update_idem, ← hnone, Function.update_eq_self]
  · rw [if_neg (by omega), if_neg (by omega)]
    exact .inr (.inl ⟨heq, hchosen, by rw [validNum_store, heq]⟩)
  · rw [if_neg (by omega), if_pos hgt]
    refine .inr (.inr ⟨hgt, rfl, ?_⟩)
    rw [← validNum_store, ← validNum_setInvalid]
    rfl

end

/-! ## The loop -/

/-- The variants so far had these numbers of segments: the greatest one is that of the playlist of
the session, other variants have it when it was there twice, and all is aligned when no tie was
lost. -/
structure Ranked (ns : List Int) (c : Choice) (i : Nat) (r : Int) : Prop where
  chosen : c.chosen = some i
  num : c.validNum i = some r
  mem : r ∈ ns
  max : ∀ x ∈ ns, x ≤ r
  listed : ∀ j n, c.validNum j = some n → n ∈ ns
  tied : (∃ j, j ≠ i ∧ c.validNum j = some r) ↔ 2 ≤ ns.count r
  aligned : (∀ j n, c.validNum j = some n → n = r) ↔ NoLostTie ns

section
variable {c : Choice} {index i j : Nat} {p : M3UParser} {r : Int} {first : Nat} {ns : List Int}

theorem Ranked.arrive_lt {m : Int} {c' : Choice} (h : Ranked ns c i r) (hm : m < r)
    (hc : c'.chosen = some i) (hv : c'.validNum = c.validNum) : Ranked (ns ++ [m]) c' i r := by
  have hcount : (ns ++ [m]).count r = ns.count r := by
    rw [List.count_append, List.count_singleton, if_neg (by simpa using Int.ne_of_lt hm), Nat.add_zero]
  refine ⟨hc, by rw [hv, h.num], List.mem_append_left _ h.mem, ?_, ?_, ?_, ?_⟩
  · intro x hx
    rcases List.mem_append.mp hx with hx | hx
    · exact h.max x hx
    · rw [List.mem_singleton.mp hx]
      omega
  · intro j n hj
    rw [hv] at hj
    exact List.mem_append_left _ (h.listed j n hj)
  · rw [hv, hcount, h.tied]
  · rw [hv, h.aligned, noLostTie_append_le h.mem (by omega)]

theorem Ranked.arrive_eq {c' : Choice} (h : Ranked ns c i r) (hne : index ≠ i)
    (hnone : c.validNum index = none) (hc : c'.chosen = some i)
    (hv : c'.validNum = Function.update c.validNum index (some r)) : Ranked (ns ++ [r]) c' i r := by
  have hnum : c'.validNum i = some r := by rw [hv, Function.update_of_ne (Ne.symm hne), h.num]
  have hindex : c'.validNum index = some r := by rw [hv, Function.update_self]
  have hother : ∀ j n, j ≠ index → (c'.validNum j = some n ↔ c.validNum j = some n) := by
    intro j n hj
    rw [hv, Function.update_of_ne hj]
  have hpos := List.count_pos_iff.mpr h.mem
  refine ⟨hc, hnum, List.mem_append_left _ h.mem, ?_, ?_, ?_, ?_⟩
  · intro x hx
    rcases List.mem_append.mp hx with hx | hx
    · exact h.max x hx
    · exact Int.le_of_eq (List.mem_singleton.mp hx)
  · intro j n hj
    by_cases hji : j = index
    · rw [hji, hindex] at hj
      exact List.mem_append_right _ (List.mem_singleton.mpr (Option.some.inj hj).symm)
    · exact List.mem_append_left _ (h.listed j n ((hother j n hji).mp hj))
  · refine iff_of_true ⟨index, hne, hindex⟩ ?_
    rw [List.count_append, List.count_singleton_self]
    omega
  · rw [noLostTie_append_le h.mem (Int.le_refl r), ← h.aligned]
    constructor
    · intro hall j n hj
      have hji : j ≠ index := by
        rintro rfl
        rw [hnone] at hj
        cases hj
      exact hall j n ((hother j n hji).mpr hj)
    · intro hall j n hj
      by_cases hji : j = index
      · rw [hji, hindex] at hj
        exact (Option.some.inj hj).symm
      · exact hall j n ((hother j n hji).mp hj)

theorem Ranked.arrive_gt {m : Int} {c' : Choice} (h : Ranked ns c i r) (hm : r < m)
    (hne : index ≠ i) (hnone : c.validNum index = none) (hc : c'.chosen = some index)
    (hv : c'.validNum = Function.update (Function.update c.validNum index (some m)) i none) :
    Ranked (ns ++ [m]) c' index m := by
  have hindex : c'.validNum index = some m := by
    rw [hv, Function.update_of_ne hne, Function.update_self]
  have hi : c'.validNum i = none := by rw [hv, Function.update_self]
  have hother : ∀ j n, j ≠ index → j ≠ i → (c'.validNum j = some n ↔ c.validNum j = some n) := by
    intro j n hj hji
    rw [hv, Function.update_of_ne hji, Function.update_of_ne hj]
  have hold : ∀ j n, j ≠ index → c'.validNum j = some n → j ≠ i ∧ c.validNum j = some n := by
    intro j n hj hn
    have hji : j ≠ i := by
      rintro rfl
      rw [hi] at hn
      cases hn
    exact ⟨hji, (hother j n hj hji).mp hn⟩
  have hnot : m ∉ ns := fun hmem => absurd (h.max m hmem) (by omega)
  refine ⟨hc, hindex, List.mem_append_right _ (List.mem_singleton.mpr rfl), ?_, ?_, ?_, ?_⟩
  · intro x hx
    rcases List.mem_append.mp hx with hx | hx
    · have := h.max x hx
      omega
    · exact Int.le_of_eq (List.mem_singleton.mp hx)
  · intro j n hj
    by_cases hji : j = index
    · rw [hji, hindex] at hj
      exact List.mem_append_right _ (List.mem_singleton.mpr (Option.some.inj hj).symm)
    · exact List.mem_append_left _ (h.listed j n (hold j n hji hj).2)
  · refine iff_of_false ?_ ?_
    · rintro ⟨j, hj, hjm⟩
      exact hnot (h.listed j m (hold j m hj hjm).2)
    · rw [List.count_append, List.count_singleton_self, List.count_eq_zero_of_not_mem hnot]
      omega
  · rw [noLostTie_append_gt h.mem h.max hm, ← h.aligned, ← Nat.not_le, ← h.tied]
    constructor
    · intro hall
      -- a variant that was valid before, but for the playlist of the session, would be of length `m`
      have hgone : ∀ j n, j ≠ i → c.validNum j ≠ some n := by
        intro j n hji hj
        have hjx : j ≠ index := by
          rintro rfl
          rw [hnone] at hj
          cases hj
        have hnm := hall j n ((hother j n hjx hji).mpr hj)
        exact hnot (hnm ▸ h.listed j n hj)
      refine ⟨fun j n hj => ?_, fun ⟨j, hji, hj⟩ => hgone j r hji hj⟩
      by_cases hji : j = i
      · rw [hji, h.num] at hj
        exact (Option.some.inj hj).symm
      · exact absurd hj (hgone j n hji)
    · rintro ⟨hall, htie⟩ j n hj
      by_cases hjx : j = index
      · rw [hjx, hindex] at hj
        exact (Option.some.inj hj).symm
      · obtain ⟨hji, hj⟩ := hold j n hjx hj
        exact absurd ⟨j, hji, hall j n hj ▸ hj⟩ htie

theorem Ranked.arrive (h : Ranked ns c i r) (hfirst : index ≠ first)
    (hnew : c.playlists index = none) (hp : p.isComplete = true) :
    ∃ i' r', Ranked (ns ++ [p.baseNodeNum]) (c.arrive first index p) i' r' := by
  have hnone : c.validNum index = none := by rw [Choice.validNum, hnew]; rfl
  have hne : index ≠ i := by
    rintro rfl
    rw [h.num] at hnone
    cases hnone
  rcases arrive_cases h.chosen h.num hne hfirst hnew hp with ⟨hm, hc, hv⟩ | ⟨hm, hc, hv⟩ | ⟨hm, hc, hv⟩
  · exact ⟨i, r, h.arrive_lt hm hc hv⟩
  · rw [hm]
    exact ⟨i, r, h.arrive_eq hne hnone hc hv⟩
  · exact ⟨index, p.baseNodeNum, h.arrive_gt hm hne hnone hc hv⟩

/-- The first playlist is that of the session. -/
theorem ranked_first (first index : Nat) (p : M3UParser) :
    Ranked [p.baseNodeNum] (Choice.arrive first ⟨fun _ => none, none⟩ index p) index p.baseNodeNum := by
  have hchosen : (Choice.store ⟨fun _ => none, none⟩ first index p).chosen = some index := by
    simp [Choice.store]
  have hstay : Choice.arrive first ⟨fun _ => none, none⟩ index p =
      Choice.store ⟨fun _ => none, none⟩ first index p := by
    simp [Choice.arrive, Choice.check, hchosen]
  have hv : (Choice.arrive first ⟨fun _ => none, none⟩ index p).validNum =
      Function.update (fun _ => none) index (some p.baseNodeNum) := by
    rw [hstay, validNum_store]
    rfl
  have hall : ∀ j n, (Choice.arrive first ⟨fun _ => none, none⟩ index p).validNum j = some n →
      j = index ∧ n = p.baseNodeNum := by
    intro j n hj
    rw [hv] at hj
    by_cases hji : j = index
    · rw [hji, Function.update_self] at hj
      exact ⟨hji, (Option.some.inj hj).symm⟩
    · rw [Function.update_of_ne hji] at hj
      cases hj
  refine ⟨by rw [hstay, hchosen], by rw [hv, Function.update_self], List.mem_singleton.mpr rfl,
    fun x hx => Int.le_of_eq (List.mem_singleton.mp hx),
    fun j n hj => List.mem_singleton.mpr (hall j n hj).2, ?_, ?_⟩
  · refine iff_of_false ?_ ?_
    · rintro ⟨j, hj, hjr⟩
      exact hj (hall j _ hjr).1
    · rw [List.count_singleton_self]
      omega
  · exact iff_of_true (fun j n hj => (hall j n hj).2) (noLostTie_singleton _)

end

/-- The playlists that are fetched before the loop is left. -/
def ChooseEnv.fetchedFrom (env : ChooseEnv) : List Nat → List (Nat × M3UParser)
  | [] => []
  | index :: rest =>
    match env.fetch index with
    | none => env.fetchedFrom rest
    | some p => (index, p) :: if env.stops p then [] else env.fetchedFrom rest

/-- The numbers of segments of the playlists in the order in which they are fetched. -/
def ChooseEnv.nodeNums (env : ChooseEnv) : List Int :=
  (env.fetchedFrom env.indices).map (·.2.baseNodeNum)

section
variable {env : ChooseEnv} {c c' : Choice} {first i : Nat} {r : Int} {ns : List Int}

theorem fetchedFrom_sublist (env : ChooseEnv) (is : List Nat) :
    ((env.fetchedFrom is).map (·.1)).Sublist is := by
  induction is with
  | nil => exact List.Sublist.refl _
  | cons index rest ih =>
    unfold ChooseEnv.fetchedFrom
    cases env.fetch index with
    | none => exact ih.cons index
    | some p =>
      dsimp only
      split
      · exact (List.nil_sublist rest).cons_cons index
      · exact ih.cons_cons index

theorem fetchedFrom_complete (h : ∀ index p, env.fetch index = some p → p.isComplete = true)
    (is : List Nat) : ∀ x ∈ env.fetchedFrom is, x.2.isComplete = true := by
  induction is with
  | nil => exact List.forall_mem_nil _
  | cons index rest ih =>
    unfold ChooseEnv.fetchedFrom
    cases hf : env.fetch index with
    | none => exact ih
    | some p =>
      refine List.forall_mem_cons.mpr ⟨h index p hf, ?_⟩
      split
      · exact List.forall_mem_nil _
      · exact ih

/-- A loop that is not interrupted takes the playlists that are fetched. -/
theorem chooseLoop_eq {is : List Nat} (h : chooseLoop env first is c = (0, c')) :
    c' = (env.fetchedFrom is).foldl (fun c x => c.arrive first x.1 x.2) c := by
  induction is generalizing c with
  | nil =>
    cases h
    rfl
  | cons index rest ih =>
    unfold chooseLoop at h
    unfold ChooseEnv.fetchedFrom
    split at h
    · cases h
    · cases hf : env.fetch index with
      | none =>
        rw [hf] at h
        exact ih h
      | some p =>
        rw [hf] at h
        dsimp only at h ⊢
        split at h
        · rename_i hstop
          cases h
          rw [if_pos hstop]
          rfl
        · rename_i hstop
          rw [if_neg hstop]
          exact ih h

theorem Ranked.foldl {l : List (Nat × M3UParser)} (h : Ranked ns c i r)
    (hl : (l.map (·.1)).Pairwise (· < ·)) (hfirst : ∀ x ∈ l, x.1 ≠ first)
    (hnew : ∀ x ∈ l, c.playlists x.1 = none) (hp : ∀ x ∈ l, x.2.isComplete = true) :
    ∃ i' r', Ranked (ns ++ l.map (·.2.baseNodeNum))
      (l.foldl (fun c x => c.arrive first x.1 x.2) c) i' r' := by
  induction l generalizing c ns i r with
  | nil =>
    rw [List.map_nil, List.append_nil]
    exact ⟨i, r, h⟩
  | cons x l ih =>
    obtain ⟨hx, hl⟩ := List.pairwise_cons.mp hl
    obtain ⟨hfx, hfirst⟩ := List.forall_mem_cons.mp hfirst
    obtain ⟨hnx, hnew⟩ := List.forall_mem_cons.mp hnew
    obtain ⟨hpx, hp⟩ := List.forall_mem_cons.mp hp
    obtain ⟨i', r', h'⟩ := h.arrive hfx hnx hpx
    rw [List.map_cons, List.append_cons, List.foldl_cons]
    refine ih h' hl hfirst (fun y hy => playlists_arrive ?_ (hnew y hy)) hp
    exact Nat.ne_of_gt (hx y.1 (List.mem_map_of_mem hy))

/-- What the loop leaves when a playlist is chosen. -/
theorem ranked_choose (hvod : ∀ index p, env.fetch index = some p → p.isComplete = true)
    (h : chooseBandwidthAndInitPlaylist env = (0, c)) : ∃ i r, Ranked env.nodeNums c i r := by
  unfold chooseBandwidthAndInitPlaylist at h
  split at h
  · cases h
  generalize hr : chooseLoop env env.firstIndex env.indices ⟨fun _ => none, none⟩ = r at h
  obtain ⟨ret, c'⟩ := r
  dsimp only at h
  split at h
  · rename_i hret
    cases h
    exact absurd rfl hret
  rename_i hret
  obtain rfl : ret = 0 := not_not.mp hret
  obtain ⟨hres, rfl⟩ := Prod.mk.inj h
  have hloop := chooseLoop_eq hr
  have hsub := fetchedFrom_sublist env env.indices
  have hcomplete := fetchedFrom_complete hvod env.indices
  unfold ChooseEnv.nodeNums
  cases hl : env.fetchedFrom env.indices with
  | nil =>
    rw [hl] at hloop
    rw [hloop] at hres
    cases hres
  | cons x l =>
    rw [hl] at hloop hsub hcomplete
    have hpair : ((x :: l).map (·.1)).Pairwise (· < ·) :=
      List.Pairwise.sublist hsub (List.pairwise_lt_range' 1 Nat.one_pos)
    obtain ⟨hx, hpair⟩ := List.pairwise_cons.mp hpair
    have hxle := (List.mem_range'_1.mp (hsub.subset List.mem_cons_self)).1
    have hlater : ∀ y ∈ l, x.1 < y.1 := fun y hy => hx y.1 (List.mem_map_of_mem hy)
    obtain ⟨i, r, hrank⟩ := (ranked_first env.firstIndex x.1 x.2).foldl hpair
      (fun y hy => Nat.ne_of_gt (Nat.lt_of_le_of_lt hxle (hlater y hy)))
      (fun y hy => playlists_arrive (Nat.ne_of_gt (hlater y hy)) rfl)
      (List.forall_mem_cons.mp hcomplete).2
    exact ⟨i, r, hloop ▸ hrank⟩

theorem Ranked.aligned_iff (h : Ranked ns c i r) : c.Aligned ↔ NoLostTie ns := by
  rw [← h.aligned]
  constructor
  · rintro ⟨i', r', hi, hr, hall⟩
    rw [h.chosen] at hi
    cases hi
    rw [h.num] at hr
    cases hr
    exact hall
  · exact fun hall => ⟨i, r, h.chosen, h.num, hall⟩

/-- **The variants are aligned** in a session with complete playlists, exactly if no playlist as
long as an earlier one, and none before it longer, comes before a longer one. -/
theorem aligned_choose_iff (hvod : ∀ index p, env.fetch index = some p → p.isComplete = true)
    (h : chooseBandwidthAndInitPlaylist env = (0, c)) : c.Aligned ↔ NoLostTie env.nodeNums := by
  obtain ⟨i, r, hrank⟩ := ranked_choose hvod h
  exact hrank.aligned_iff

end

/-- A complete playlist of `n` segments. -/
def completePlaylist (n : Nat) : M3UParser where
  isVariantPlaylist := false
  isExtm3u := true
  isComplete := true
  isInitcheck := true
  targetDuration := 10
  baseNodeNum := n
  durationUs := 10000000 * n
  iframeNodeList := []
  head := (List.range n).reverse.map fun (i : Nat) => { M3uBaseNode.zero with index := i }
  mediaGroupHead := []

/-- Variants with these numbers of segments; 0 is that it is not fetched. -/
def variantsOf (nums : List Nat) : ChooseEnv where
  bandwidthItemNum := nums.length
  fixedBw := -1
  bwquality := -1
  interrupted := fun _ => false
  fetch := fun index => match nums[index]? with
    | some (n + 1) => some (completePlaylist (n + 1))
    | _ => none

theorem complete_variantsOf (nums : List Nat) (index : Nat) (p : M3UParser)
    (h : (variantsOf nums).fetch index = some p) : p.isComplete = true := by
  dsimp only [variantsOf] at h
  split at h
  · cases h
    rfl
  · cases h

/-- A variant that is shorter, one that is not there, and one as long as the first. -/
theorem aligned_shorter :
    (chooseBandwidthAndInitPlaylist (variantsOf [2, 1, 0, 2])).2.Aligned := by
  have htwo : NoLostTie ([2] ++ [1]) :=
    (noLostTie_append_le (r := 2) (by decide) (by decide)).mpr (noLostTie_singleton 2)
  have hthree : NoLostTie ([2, 1] ++ [2]) :=
    (noLostTie_append_le (r := 2) (by decide) (by decide)).mpr htwo
  exact (aligned_choose_iff (complete_variantsOf [2, 1, 0, 2]) (Prod.ext (by decide) rfl)).mpr hthree

/-- **Two variants of one length, and a longer one**: the second stays valid. -/
theorem aligned_longer :
    (chooseBandwidthAndInitPlaylist (variantsOf [1, 1, 2])).1 = 0 ∧
      ¬ (chooseBandwidthAndInitPlaylist (variantsOf [1, 1, 2])).2.Aligned := by
  refine ⟨by decide, ?_⟩
  rintro ⟨i, r, hi, hr, hall⟩
  have hchosen : (chooseBandwidthAndInitPlaylist (variantsOf [1, 1, 2])).2.chosen = some 2 := by decide
  rw [hchosen] at hi
  cases hi
  have h1 := hall 1 1 (by decide)
  have h2 := hall 2 2 (by decide)
  omega

end VendorAmlogic.Hls
