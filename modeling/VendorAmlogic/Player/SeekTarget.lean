import VendorAmlogic.Player.PacketSeek

/-!
# Where a seek in the packet queue goes

`avpkt_cache_queue_seek_bypts` on a queue whose packets all have a timestamp:
the two candidates that its searches leave, and the packet that is delivered
next. Behind the cursor the search among key frames is not made.
-/

namespace VendorAmlogic.Player

open VendorAmlogic.Lib

namespace PacketQueue

/-! ## Two candidates around a target -/

/-- Of the packets with `P`, `g2` is the first one that is not before the target, and `g1` the
last one before it, or `g2` when there is none. -/
structure Around (P : Nat → Prop) (val : Nat → Int) (target : Int) (g1 g2 : Nat) : Prop where
  second : P g2
  le : target ≤ val g2
  first : ∀ p, P p → target ≤ val p → val g2 ≤ val p
  before : (P g1 ∧ val g1 < target ∧ ∀ p, P p → val p < target → val p ≤ val g1) ∨
    (g1 = g2 ∧ ∀ p, P p → target ≤ val p)

section
variable {P P' : Nat → Prop} {val : Nat → Int} {target : Int} {g1 g2 : Nat}

/-- More packets, all before one that is before the target. -/
theorem Around.widen (h : Around P val target g1 g2) (hsub : ∀ p, P p → P' p) {x : Nat} (hx : P x)
    (hlt : val x < target) (hout : ∀ p, P' p → P p ∨ val p ≤ val x) :
    Around P' val target g1 g2 where
  second := hsub g2 h.second
  le := h.le
  first := by
    intro p hp hle
    rcases hout p hp with hp | hpx
    · exact h.first p hp hle
    · omega
  before := by
    rcases h.before with ⟨hg1, hbefore, hlast⟩ | ⟨-, hall⟩
    · refine .inl ⟨hsub g1 hg1, hbefore, fun p hp hpt => ?_⟩
      rcases hout p hp with hp | hpx
      · exact hlast p hp hpt
      · exact hpx.trans (hlast x hx hlt)
    · exact absurd (hall x hx) (by omega)

/-- The same packets, with the same values. -/
theorem Around.congr {val' : Nat → Int} (h : Around P val target g1 g2) (hiff : ∀ p, P p ↔ P' p)
    (hval : ∀ p, P p → val p = val' p) : Around P' val' target g1 g2 := by
  obtain rfl : P = P' := funext fun p => propext (hiff p)
  refine ⟨h.second, hval g2 h.second ▸ h.le, fun p hp hle => ?_, ?_⟩
  · rw [← hval p hp] at hle ⊢
    rw [← hval g2 h.second]
    exact h.first p hp hle
  · rcases h.before with ⟨hg1, hlt, hlast⟩ | ⟨rfl, hall⟩
    · refine .inl ⟨hg1, hval g1 hg1 ▸ hlt, fun p hp hpt => ?_⟩
      rw [← hval p hp] at hpt ⊢
      rw [← hval g1 hg1]
      exact hlast p hp hpt
    · exact .inr ⟨rfl, fun p hp => hval p hp ▸ hall p hp⟩

end

/-! ## The searches -/

/-- The timestamp of a packet. -/
def time (q : PacketQueue) (a : Nat) : Int := (q.pkt a).pts

/-- The packets all have timestamps, which increase. -/
structure Timed (q : PacketQueue) (as : List Nat) : Prop where
  pts : ∀ a ∈ as, q.pts a = q.time a
  ne : ∀ a ∈ as, q.time a ≠ noPts
  sorted : as.Pairwise fun a b => q.time a < q.time b
  head : ∀ f, q.firstPkt = some f → q.headValidPts = q.time f
  tail : ∀ l, q.lastPkt = some l → q.tailValidPts = q.time l

/-- The search so far: what it has passed is before the target, and the last candidate of it is
the second one. -/
structure Passed (val : Nat → Int) (cand : Nat → Bool) (target : Int) (pre : List Nat)
    (s : Search) : Prop where
  success : s.success = false
  before : ∀ p ∈ pre, cand p = true → val p < target
  last : (s.m1 = none ∧ ∀ p ∈ pre, cand p = false) ∨
    (s.m1 ≠ none ∧ ∃ m, s.m2 = some m ∧ m ∈ pre ∧ cand m = true ∧
      ∀ p ∈ pre, cand p = true → val p ≤ val m)

section
variable {q q' : PacketQueue} {as L pre : List Nat} {a c f g l start : Nat} {s : Search}
  {val : Nat → Int} {cand : Nat → Bool} {target : Int}

theorem Passed.skip (h : Passed val cand target pre s) (ha : cand a = false) :
    Passed val cand target (pre ++ [a]) s := by
  refine ⟨h.success, fun p hp hc => ?_, ?_⟩
  · rcases List.mem_append.mp hp with hp | hp
    · exact h.before p hp hc
    · obtain rfl := List.mem_singleton.mp hp
      rw [ha] at hc
      cases hc
  · rcases h.last with ⟨hm1, hnone⟩ | ⟨hm1, m, hm2, hm, hcm, hmax⟩
    · refine .inl ⟨hm1, fun p hp => ?_⟩
      rcases List.mem_append.mp hp with hp | hp
      · exact hnone p hp
      · rwa [List.mem_singleton.mp hp]
    · refine .inr ⟨hm1, m, hm2, List.mem_append_left _ hm, hcm, fun p hp hc => ?_⟩
      rcases List.mem_append.mp hp with hp | hp
      · exact hmax p hp hc
      · obtain rfl := List.mem_singleton.mp hp
        rw [ha] at hc
        cases hc

theorem Search.push_m2 (s : Search) (a : Nat) : (s.push a).m2 = some a := by
  unfold Search.push
  split <;> rfl

theorem Search.push_success (s : Search) (a : Nat) : (s.push a).success = s.success := by
  unfold Search.push
  split <;> rfl

theorem Passed.push (h : Passed val cand target pre s) (ha : cand a = true) (hlt : val a < target)
    (hmax : ∀ p ∈ pre, val p < val a) : Passed val cand target (pre ++ [a]) (s.push a) := by
  refine ⟨by rw [s.push_success, h.success], fun p hp hc => ?_,
    .inr ⟨?_, a, s.push_m2 a, by simp, ha, ?_⟩⟩
  · rcases List.mem_append.mp hp with hp | hp
    · exact h.before p hp hc
    · rwa [List.mem_singleton.mp hp]
  · unfold Search.push
    split
    · simp
    · rename_i hm1
      rcases h.last with ⟨hnone, -⟩ | ⟨-, m, hm2, -⟩
      · exact absurd hnone hm1
      · simp [hm2]
  · intro p hp _
    rcases List.mem_append.mp hp with hp | hp
    · exact (hmax p hp).le
    · rw [List.mem_singleton.mp hp]

/-- The candidates at the first packet that is not before the target. -/
theorem Passed.stop (h : Passed val cand target pre s) (ha : cand a = true) (hle : target ≤ val a)
    (hafter : ∀ p ∈ L, val a < val p) :
    ∃ g1, (s.push a).m1 = some g1 ∧
      Around (fun p => p ∈ pre ++ a :: L ∧ cand p = true) val target g1 a := by
  have hfirst (p : Nat) (hp : p ∈ pre ++ a :: L ∧ cand p = true) (hpt : target ≤ val p) :
      val a ≤ val p := by
    rcases List.mem_append.mp hp.1 with hmem | hmem
    · exact absurd (h.before p hmem hp.2) (by omega)
    · rcases List.mem_cons.mp hmem with rfl | hmem
      · exact le_refl _
      · exact (hafter p hmem).le
  have hpast (p : Nat) (hp : p ∈ pre ++ a :: L ∧ cand p = true) (hpt : val p < target) : p ∈ pre := by
    rcases List.mem_append.mp hp.1 with hmem | hmem
    · exact hmem
    · rcases List.mem_cons.mp hmem with rfl | hmem
      · exact absurd hpt (by omega)
      · exact absurd (hafter p hmem) (by omega)
  have hself : a ∈ pre ++ a :: L ∧ cand a = true := ⟨by simp, ha⟩
  rcases h.last with ⟨hm1, hnone⟩ | ⟨hm1, m, hm2, hm, hcm, hmax⟩
  · refine ⟨a, by simp [Search.push, hm1], hself, hle, hfirst, .inr ⟨rfl, fun p hp => ?_⟩⟩
    by_contra hlt
    have hc := hnone p (hpast p hp (by omega))
    rw [hp.2] at hc
    cases hc
  · refine ⟨m, by simp [Search.push, hm1, hm2], hself, hle, hfirst, .inl ?_⟩
    exact ⟨⟨List.mem_append_left _ hm, hcm⟩, h.before m hm hcm, fun p hp hpt =>
      hmax p (hpast p hp hpt) hp.2⟩

/-- What a search of these packets has found: the candidates around the target, or nothing that is
not before it. -/
def Searched (L : List Nat) (val : Nat → Int) (cand : Nat → Bool) (target : Int) (r : Search) :
    Prop :=
  (r.success = true ∧ ∃ g1 g2, r.m1 = some g1 ∧ r.m2 = some g2 ∧
    Around (fun p => p ∈ L ∧ cand p = true) val target g1 g2) ∨
  (r.success = false ∧ ∀ p ∈ L, cand p = true → val p < target)

/-- A search along a list. -/
theorem walk_search (hl : L.getLast? = some l)
    (hids : L.Pairwise fun a b => q.frameId a < q.frameId b)
    (hval : (pre ++ L).Pairwise fun a b => val a < val b) (h : Passed val cand target pre s) :
    Searched (pre ++ L) val cand target (walk (q.searchBody l cand val target) L s).1 := by
  induction L generalizing pre s with
  | nil => simp at hl
  | cons a L ih =>
    obtain ⟨-, hvalL, hvalpre⟩ := List.pairwise_append.mp hval
    have hgo (s' : Search) (hs' : Passed val cand target (pre ++ [a]) s') :
        Searched (pre ++ a :: L) val cand target (walk (q.searchBody l cand val target) L s').1 := by
      cases L with
      | nil => exact .inr ⟨hs'.success, hs'.before⟩
      | cons b L =>
        rw [List.append_cons]
        exact ih (by rwa [List.getLast?_cons_cons] at hl) (List.pairwise_cons.mp hids).2
          (by rwa [← List.append_cons]) hs'
    rw [walk_searchBody hl hids]
    by_cases hcand : cand a = true
    · by_cases hval : target ≤ val a
      · obtain ⟨g1, hm1, haround⟩ := h.stop hcand hval (List.pairwise_cons.mp hvalL).1
        rw [if_pos ⟨hcand, hval⟩]
        exact .inl ⟨rfl, g1, a, hm1, s.push_m2 a, haround⟩
      · rw [if_neg fun hand => hval hand.2, if_pos hcand]
        exact hgo _ (h.push hcand (not_le.mp hval) fun p hp => hvalpre p hp a List.mem_cons_self)
    · rw [if_neg fun hand => hcand hand.1, if_neg hcand]
      exact hgo _ (h.skip (Bool.eq_false_iff.mpr hcand))

/-- The order of the packets is that of their timestamps. -/
theorem Timed.le_iff (ht : q.Timed as) (h : q.Listed as) {x y : Nat} (hx : x ∈ as) (hy : y ∈ as) :
    q.frameId x ≤ q.frameId y ↔ q.time x ≤ q.time y := by
  have hlt {x y : Nat} (hx : x ∈ as) (hy : y ∈ as) (hid : q.frameId x < q.frameId y) :
      q.time x < q.time y := by
    obtain ⟨xs, ys, rfl, -, -, -, -, hmem, -⟩ := h.from_mem hx
    have hyx : y ∈ x :: ys := (hmem y).2 ⟨hy, hid.le⟩
    rcases List.mem_cons.mp hyx with rfl | hys
    · exact absurd hid (lt_irrefl _)
    · exact (List.pairwise_cons.mp (List.pairwise_append.mp ht.sorted).2.1).1 y hys
  rcases lt_trichotomy (q.frameId x) (q.frameId y) with hxy | heq | hyx
  · exact iff_of_true hxy.le (hlt hx hy hxy).le
  · obtain rfl := h.frameId_inj hx hy heq
    exact iff_of_true (le_refl _) (le_refl _)
  · exact iff_of_false (not_le.mpr hyx) (not_le.mpr (hlt hy hx hyx))

theorem Timed.first_le (ht : q.Timed as) (h : q.Listed as) (hf : q.firstPkt = some f) {p : Nat}
    (hp : p ∈ as) : q.time f ≤ q.time p := by
  have hfm : f ∈ as := List.mem_of_head? (hf.symm.trans h.links.first_eq).symm
  exact (ht.le_iff h hfm hp).1 (h.first_le hf hp)

/-- The packets that a search from `a` goes through. -/
theorem Listed.searched (h : q.Listed as) (hl : q.lastPkt = some l) (ha : a ∈ as) :
    ∃ xs ys, as = xs ++ a :: ys ∧ (a :: ys).getLast? = some l ∧
      ((a :: ys).Pairwise fun a b => q.frameId a < q.frameId b) ∧
      (∀ p, p ∈ a :: ys ↔ p ∈ as ∧ q.frameId a ≤ q.frameId p) ∧
      ∀ cand val target s, q.searchFrom l cand val target a s =
        some (walk (q.searchBody l cand val target) (a :: ys) s).1 := by
  obtain ⟨xs, ys, has, hnext, -, hlen, -, hmem, -⟩ := h.from_mem ha
  have hlast : (a :: ys).getLast? = some l := by
    rw [← hl, h.links.last_eq, has, List.getLast?_append_of_ne_nil _ (by simp)]
  have hids : (a :: ys).Pairwise fun a b => q.frameId a < q.frameId b :=
    (List.pairwise_append.mp (has ▸ h.ids)).2.1
  refine ⟨xs, ys, has, hlast, hids, hmem, fun cand val target s => ?_⟩
  rw [PacketQueue.searchFrom, hnext.forNext_eq hlen]
  rfl

/-- A search from a packet on. -/
theorem Listed.searchFrom_spec (cand : Nat → Bool) (target : Int) (h : q.Listed as)
    (ht : q.Timed as) (hl : q.lastPkt = some l) (ha : a ∈ as)
    (hval : ∀ p ∈ as, val p = q.time p) (m2 : Option Nat) :
    ∃ r, q.searchFrom l cand val target a ⟨none, m2, false⟩ = some r ∧
      ((r.success = true ∧ ∃ g1 g2, r.m1 = some g1 ∧ r.m2 = some g2 ∧
        Around (fun p => (p ∈ as ∧ q.time a ≤ q.time p) ∧ cand p = true) q.time target g1 g2) ∨
      (r.success = false ∧
        ∀ p, p ∈ as → q.time a ≤ q.time p → cand p = true → q.time p < target)) := by
  obtain ⟨xs, ys, has, hlast, hids, hmem, hsearch⟩ := h.searched hl ha
  have hin (p : Nat) : p ∈ a :: ys ↔ p ∈ as ∧ q.time a ≤ q.time p := by
    rw [hmem]
    exact and_congr_right fun hp => ht.le_iff h ha hp
  have hsorted : (a :: ys).Pairwise fun a b => val a < val b := by
    refine (List.pairwise_append.mp (has ▸ ht.sorted)).2.1.imp_of_mem fun {x y} hx hy hxy => ?_
    rw [hval x ((hin x).1 hx).1, hval y ((hin y).1 hy).1]
    exact hxy
  have hpassed : Passed val cand target [] ⟨none, m2, false⟩ :=
    ⟨rfl, fun p hp => absurd hp List.not_mem_nil, .inl ⟨rfl, fun p hp => absurd hp List.not_mem_nil⟩⟩
  refine ⟨_, hsearch cand val target _, ?_⟩
  rcases walk_search hlast hids hsorted hpassed with ⟨hs, g1, g2, hm1, hm2, haround⟩ | ⟨hs, hnone⟩
  · exact .inl ⟨hs, g1, g2, hm1, hm2, haround.congr (fun p => and_congr_left' (hin p))
      fun p hp => hval p ((hin p).1 hp.1).1⟩
  · refine .inr ⟨hs, fun p hp hap hc => ?_⟩
    rw [← hval p hp]
    exact hnone p ((hin p).2 ⟨hp, hap⟩) hc

/-! ## The candidates of a seek -/

/-- A key frame, when these are asked for. -/
def IsKey (q : PacketQueue) (byKey : Bool) (p : Nat) : Prop :=
  byKey = true → (q.pkt p).key = true

/-- The search among key frames succeeds. -/
def KeyFound (q : PacketQueue) (as : List Nat) (seekPts : Int) : Prop :=
  ∃ p ∈ as, (q.pkt p).key = true ∧ seekPts ≤ q.time p

/-- What a seek may go to: a key frame if these are asked for and there is one behind the target,
or else any packet. -/
def Eligible (q : PacketQueue) (as : List Nat) (seekPts : Int) (byKey : Bool) (p : Nat) : Prop :=
  p ∈ as ∧ (byKey = true → q.KeyFound as seekPts → (q.pkt p).key = true)

/-- The eligible packets that the searches come to: for a target behind the cursor, key frames
are looked for from the cursor on. -/
def Candidate (q : PacketQueue) (as : List Nat) (c : Nat) (seekPts : Int) (byKey : Bool) (p : Nat) :
    Prop :=
  q.Eligible as seekPts byKey p ∧
    (byKey = true → q.KeyFound as seekPts → q.time c < seekPts → q.time c ≤ q.time p)

/-- The searches of a seek from `start`: at the first packet, or at the cursor before the
target. -/
theorem Listed.searchTwice_spec (cand : Nat → Bool) (byKey : Bool) (h : q.Listed as)
    (ht : q.Timed as) (hf : q.firstPkt = some f) (hl : q.lastPkt = some l) (hc : c ∈ as)
    (hstart : start ∈ as)
    (hside : start = f ∧ target ≤ q.time c ∨ start = c ∧ q.time c < target)
    (htail : target ≤ q.time l) (hval : ∀ p ∈ as, val p = q.time p)
    (hcand : ∀ p ∈ as, cand p = true ↔ q.IsKey byKey p) :
    ∃ s g1 g2, q.searchTwice f l start cand val target = some s ∧ s.success = true ∧
      s.m1 = some g1 ∧ s.m2 = some g2 ∧
      Around (q.Candidate as c target byKey) q.time target g1 g2 := by
  have hfm : f ∈ as := List.mem_of_head? (hf.symm.trans h.links.first_eq).symm
  have hlm : l ∈ as := List.mem_of_getLast? (hl.symm.trans h.links.last_eq).symm
  have hllast (p : Nat) (hp : p ∈ as) : q.time p ≤ q.time l :=
    (ht.le_iff h hp hlm).1 (h.le_last hl hp)
  -- the search starts before the target, unless it starts at the first packet
  have hreach (p : Nat) (hp : p ∈ as) (hle : target ≤ q.time p) : q.time start ≤ q.time p := by
    rcases hside with ⟨rfl, -⟩ | ⟨rfl, hlt⟩
    · exact ht.first_le h hf hp
    · exact hlt.le.trans hle
  obtain ⟨r, hr, hcase⟩ := h.searchFrom_spec cand target ht hl hstart hval none
  rw [PacketQueue.searchTwice, hr, Option.bind_eq_bind, Option.bind_some]
  rcases hcase with ⟨hs, g1, g2, hm1, hm2, haround⟩ | ⟨hs, hnone⟩
  · rw [if_pos hs]
    refine ⟨r, g1, g2, rfl, hs, hm1, hm2, ?_⟩
    cases byKey with
    | true =>
      obtain ⟨⟨hg2, -⟩, hc2⟩ := haround.second
      have hfound : q.KeyFound as target := ⟨g2, hg2, (hcand g2 hg2).1 hc2 rfl, haround.le⟩
      refine haround.congr (fun p => ?_) fun p _ => rfl
      constructor
      · rintro ⟨⟨hp, hstartp⟩, hcp⟩
        refine ⟨⟨hp, fun _ _ => (hcand p hp).1 hcp rfl⟩, fun _ _ hlt => ?_⟩
        rcases hside with ⟨-, hle⟩ | ⟨rfl, -⟩
        · exact absurd hlt (not_lt.mpr hle)
        · exact hstartp
      · rintro ⟨⟨hp, hkey⟩, hcursor⟩
        refine ⟨⟨hp, ?_⟩, (hcand p hp).2 fun _ => hkey rfl hfound⟩
        rcases hside with ⟨rfl, -⟩ | ⟨rfl, hlt⟩
        · exact ht.first_le h hf hp
        · exact hcursor rfl hfound hlt
    | false =>
      have hall (p : Nat) : q.Candidate as c target false p ↔ p ∈ as := by
        simp [Candidate, Eligible]
      have hany (p : Nat) (hp : p ∈ as) : cand p = true := (hcand p hp).2 fun h => by cases h
      rcases hside with ⟨rfl, -⟩ | ⟨rfl, hlt⟩
      · refine haround.congr (fun p => ?_) fun p _ => rfl
        rw [hall]
        exact ⟨fun hp => hp.1.1, fun hp => ⟨⟨hp, ht.first_le h hf hp⟩, hany p hp⟩⟩
      · refine haround.widen (fun p hp => (hall p).2 hp.1.1)
          ⟨⟨hstart, le_refl _⟩, hany _ hstart⟩ hlt ?_
        intro p hp
        have hp := (hall p).1 hp
        rcases le_total (q.time start) (q.time p) with hle | hle
        · exact .inl ⟨⟨hp, hle⟩, hany p hp⟩
        · exact .inr hle
  · rw [if_neg (by simp [hs])]
    have hkey : byKey = true := by
      by_contra hno
      have hcl : cand l = true := (hcand l hlm).2 fun h => absurd h hno
      exact absurd (hnone l hlm (hllast start hstart) hcl) (not_lt.mpr htail)
    have hfound : ¬ q.KeyFound as target := by
      rintro ⟨p, hp, hkeyp, hle⟩
      have hcp : cand p = true := (hcand p hp).2 fun _ => hkeyp
      exact absurd (hnone p hp (hreach p hp hle) hcp) (not_lt.mpr hle)
    have hhas (p : Nat) (hp : p ∈ as) : q.hasPts p = true := by
      rw [hasPts, ht.pts p hp]
      exact decide_eq_true (ht.ne p hp)
    obtain ⟨r', hr', hcase⟩ :=
      h.searchFrom_spec q.hasPts target ht hl hfm ht.pts r.m2
    rcases hcase with ⟨hs', g1, g2, hm1, hm2, haround⟩ | ⟨-, hnone'⟩
    · refine ⟨r', g1, g2, hr', hs', hm1, hm2, haround.congr (fun p => ?_) fun p _ => rfl⟩
      constructor
      · rintro ⟨⟨hp, -⟩, -⟩
        exact ⟨⟨hp, fun _ hyes => absurd hyes hfound⟩, fun _ hyes => absurd hyes hfound⟩
      · rintro ⟨⟨hp, -⟩, -⟩
        exact ⟨⟨hp, ht.first_le h hf hp⟩, hhas p hp⟩
    · exact absurd (hnone' l hlm (ht.first_le h hf hlm) (hhas l hlm)) (not_lt.mpr htail)

/-- **Where a seek goes**: to one of the candidates around the target, or nowhere. -/
theorem Listed.seekGoal_spec (smallFlag : Int) (byKey : Bool) (h : q.Listed as)
    (ht : q.Timed as)
    (hf : q.firstPkt = some f) (hl : q.lastPkt = some l) (hc : c ∈ as)
    (hhead : q.headValidPts ≤ target) (htail : target ≤ q.tailValidPts) :
    ∃ g1 g2, Around (q.Candidate as c target byKey) q.time target g1 g2 ∧
      q.seekGoal f l c target smallFlag byKey =
        some (some (decide (target ≤ q.time c), (choose q.time g1 g2 target smallFlag).getD c)) := by
  have hfm : f ∈ as := List.mem_of_head? (hf.symm.trans h.links.first_eq).symm
  have hend : target ≤ q.time l := ht.tail l hl ▸ htail
  have hkey (p : Nat) : (!byKey || (q.pkt p).key) = true ↔ q.IsKey byKey p := by
    cases byKey <;> simp [IsKey]
  have hchoose {val : Nat → Int} (hval : ∀ p ∈ as, val p = q.time p) {g1 g2 : Nat}
      (hg1 : g1 ∈ as) (hg2 : g2 ∈ as) :
      choose val g1 g2 target smallFlag = choose q.time g1 g2 target smallFlag := by
    simp only [choose, hval g1 hg1, hval g2 hg2]
  have hmem {g1 g2 : Nat} (haround : Around (q.Candidate as c target byKey) q.time target g1 g2) :
      g1 ∈ as ∧ g2 ∈ as := by
    have hg2 : g2 ∈ as := haround.second.1.1
    rcases haround.before with ⟨hg1, -⟩ | ⟨rfl, -⟩
    · exact ⟨hg1.1.1, hg2⟩
    · exact ⟨hg2, hg2⟩
  unfold PacketQueue.seekGoal
  rw [if_neg (not_lt.mpr hhead), ht.pts c hc]
  by_cases hside : target ≤ q.time c
  · have hcand (p : Nat) (hp : p ∈ as) :
        (q.hasPts p && (!byKey || (q.pkt p).key)) = true ↔ q.IsKey byKey p := by
      rw [Bool.and_eq_true, hkey, hasPts, ht.pts p hp]
      exact and_iff_right (decide_eq_true (ht.ne p hp))
    obtain ⟨s, g1, g2, hs, hsucc, hm1, hm2, haround⟩ := h.searchTwice_spec _ byKey ht hf hl hc hfm
      (.inl ⟨rfl, hside⟩) hend ht.pts hcand
    obtain ⟨hg1, hg2⟩ := hmem haround
    refine ⟨g1, g2, haround, ?_⟩
    simp [hside, hs, hsucc, hm1, hm2, hchoose ht.pts hg1 hg2]
  · have hcand (p : Nat) (hp : p ∈ as) :
        (decide ((q.pkt p).pts ≠ noPts) && (!byKey || (q.pkt p).key)) = true ↔
          q.IsKey byKey p := by
      rw [Bool.and_eq_true, hkey]
      exact and_iff_right (decide_eq_true (ht.ne p hp))
    obtain ⟨s, g1, g2, hs, hsucc, hm1, hm2, haround⟩ := h.searchTwice_spec _ byKey ht hf hl hc hc
      (.inr ⟨rfl, not_le.mp hside⟩) hend (fun p _ => rfl) hcand
    obtain ⟨hg1, hg2⟩ := hmem haround
    refine ⟨g1, g2, haround, ?_⟩
    change q.searchTwice f l c _ (fun p => (q.pkt p).pts) target = some s at hs
    rw [if_neg hside, if_pos htail, decide_eq_false hside]
    simp only [hs, hsucc, hm1, hm2, hchoose ht.pts hg1 hg2, Option.bind_eq_bind, Option.bind_some,
      if_true]

/-- A goal that is not behind the cursor for the seek is not before it. -/
theorem Around.cursor_le {byKey : Bool} {g1 g2 : Nat} {smallFlag : Int} (hc : c ∈ as)
    (h : Around (q.Candidate as c target byKey) q.time target g1 g2) (hlt : q.time c < target) :
    q.time c ≤ q.time ((choose q.time g1 g2 target smallFlag).getD c) := by
  have hg2 : q.time c ≤ q.time g2 := hlt.le.trans h.le
  have hg1 : q.time c ≤ q.time g1 := by
    rcases h.before with ⟨hg1, -, hlast⟩ | ⟨rfl, -⟩
    · by_cases hkey : byKey = true ∧ q.KeyFound as target
      · exact hg1.2 hkey.1 hkey.2 hlt
      · exact hlast c ⟨⟨hc, fun hb hk => absurd ⟨hb, hk⟩ hkey⟩, fun _ _ _ => le_refl _⟩ hlt
    · exact hg2
  unfold choose
  repeat' split
  all_goals first | exact hg1 | exact hg2 | exact le_refl _

/-- **What a seek does**: the packet it has chosen is the next one that is read. -/
theorem Holds.seekBypts_spec (smallFlag : Int) (byKey : Bool) (h : q.Holds as)
    (hb : ∀ a ∈ as, a < q.brk) (ht : q.Timed as) (hcur : q.curPkt = some c)
    (hhead : q.headValidPts ≤ target) (htail : target ≤ q.tailValidPts) :
    ∃ g1 g2 q', Around (q.Candidate as c target byKey) q.time target g1 g2 ∧
      q.seekBypts target smallFlag byKey = some (q', 0) ∧
      q'.curPkt = some ((choose q.time g1 g2 target smallFlag).getD c) ∧
      q'.get.2 = some (q.pkt ((choose q.time g1 g2 target smallFlag).getD c)) := by
  have hl := h.listed hb
  have hc := h.cur_mem hcur
  have hlinks := hl.links
  cases hf : q.firstPkt with
  | none =>
    rw [hlinks.first_eq, List.head?_eq_none_iff] at hf
    rw [hf] at hc
    exact absurd hc.1 List.not_mem_nil
  | some f =>
  cases hlast : q.lastPkt with
  | none =>
    rw [hlinks.last_eq, List.getLast?_eq_none_iff] at hlast
    rw [hlast] at hc
    exact absurd hc.1 List.not_mem_nil
  | some l =>
  obtain ⟨g1, g2, haround, hgoal⟩ := hl.seekGoal_spec smallFlag byKey ht hf hlast hc.1 hhead
    htail
  set g := (choose q.time g1 g2 target smallFlag).getD c with hg
  have hgm : g ∈ as := by
    have hg2 : g2 ∈ as := haround.second.1.1
    have hg1 : g1 ∈ as := by
      rcases haround.before with ⟨hg1, -⟩ | ⟨rfl, -⟩
      · exact hg1.1.1
      · exact hg2
    exact choose_mem (P := (· ∈ as)) _ _ _ hg1 hg2 hc.1
  have hnear : q.nearest l c = some none := by
    unfold PacketQueue.nearest
    rw [if_pos]
    rw [hasPts, ht.pts c hc.1]
    exact decide_eq_true (ht.ne c hc.1)
  have hnorm : q.normalize l c = some q := by
    unfold PacketQueue.normalize
    rw [hnear]
    rfl
  have hside : if decide (target ≤ q.time c) = true ∧ q.pts g ≤ q.pts c then
      q.frameId g ≤ q.frameId c else q.frameId c ≤ q.frameId g := by
    rw [ht.pts g hgm, ht.pts c hc.1]
    split
    · rename_i hle
      exact (ht.le_iff hl hgm hc.1).2 hle.2
    · rename_i hle
      refine (ht.le_iff hl hc.1 hgm).2 ?_
      by_cases htarget : target ≤ q.time c
      · exact (not_le.mp fun h => hle ⟨decide_eq_true htarget, h⟩).le
      · exact haround.cursor_le hc.1 (not_le.mp htarget)
  obtain ⟨q', hmove, hm⟩ := hl.seekMove hc hgm hside
  refine ⟨g1, g2, q', haround, ?_, by rw [hm.same], ?_⟩
  · unfold PacketQueue.seekBypts
    rw [hf, hlast, hcur]
    simp only [hnorm, hcur, hgoal, Option.bind_eq_bind, Option.bind_some]
    exact hmove
  · have hunread : q'.used g = false := by
      have := hm.flags g hgm
      simpa using this
    have hpkt : q'.pkt = q.pkt := by
      rw [hm.same]
      rfl
    have hcur' : q'.curPkt = some g := by rw [hm.same]
    unfold PacketQueue.get
    rw [hcur']
    dsimp only
    rw [if_pos hunread, hpkt]

/-! ## The right packet -/

/-- What is right to deliver after a seek: an eligible packet at the target; if there is none, the
first eligible one after it, or the last one before it if there is one. -/
structure Lands (q : PacketQueue) (as : List Nat) (seekPts smallFlag : Int) (byKey : Bool)
    (g : Nat) : Prop where
  exact : ∀ e, q.Eligible as seekPts byKey e → q.time e = seekPts → g = e
  after : (∀ e, q.Eligible as seekPts byKey e → q.time e ≠ seekPts) → smallFlag = 0 →
    q.Eligible as seekPts byKey g ∧ seekPts < q.time g ∧
      ∀ e, q.Eligible as seekPts byKey e → seekPts < q.time e → q.time g ≤ q.time e
  before : (∀ e, q.Eligible as seekPts byKey e → q.time e ≠ seekPts) → smallFlag = 1 →
    (∃ e, q.Eligible as seekPts byKey e ∧ q.time e < seekPts) →
    q.Eligible as seekPts byKey g ∧ q.time g < seekPts ∧
      ∀ e, q.Eligible as seekPts byKey e → q.time e < seekPts → q.time e ≤ q.time g

/-- The seek succeeds, and the right packet is delivered next. -/
def SeekLands (q : PacketQueue) (as : List Nat) (seekPts smallFlag : Int) (byKey : Bool) : Prop :=
  ∃ q' g, q.seekBypts seekPts smallFlag byKey = some (q', 0) ∧ q'.curPkt = some g ∧
    q'.get.2 = some (q.pkt g) ∧ q.Lands as seekPts smallFlag byKey g

/-- For a key frame before a target behind the cursor, there is one between them. -/
def KeyAhead (q : PacketQueue) (as : List Nat) (c : Nat) (seekPts : Int) : Prop :=
  q.KeyFound as seekPts → q.time c < seekPts →
    (∀ e ∈ as, (q.pkt e).key = true → q.time e ≠ seekPts) →
    (∃ e ∈ as, (q.pkt e).key = true ∧ q.time e < seekPts) →
    ∃ e ∈ as, (q.pkt e).key = true ∧ q.time c ≤ q.time e ∧ q.time e < seekPts

theorem Timed.inj (ht : q.Timed as) (h : q.Listed as) {x y : Nat} (hx : x ∈ as) (hy : y ∈ as)
    (heq : q.time x = q.time y) : x = y :=
  h.frameId_inj hx hy
    (le_antisymm ((ht.le_iff h hx hy).2 heq.le) ((ht.le_iff h hy hx).2 heq.ge))

section Lands

variable {smallFlag : Int} {byKey : Bool} {g1 g2 : Nat}

/-- At the target or after it, every eligible packet is a candidate. -/
theorem Eligible.candidate {e : Nat} (he : q.Eligible as target byKey e)
    (hle : target ≤ q.time e) : q.Candidate as c target byKey e :=
  ⟨he, fun _ _ hlt => hlt.le.trans hle⟩

/-- An eligible packet at the target is chosen. -/
theorem Around.lands_exact {e : Nat} (h : q.Listed as) (ht : q.Timed as)
    (haround : Around (q.Candidate as c target byKey) q.time target g1 g2)
    (he : q.Eligible as target byKey e) (hetime : q.time e = target) :
    q.Lands as target smallFlag byKey ((choose q.time g1 g2 target smallFlag).getD c) := by
  have hg2 : q.time g2 = target :=
    le_antisymm (hetime ▸ haround.first e (he.candidate hetime.ge) hetime.ge) haround.le
  have hchoose : (choose q.time g1 g2 target smallFlag).getD c = g2 := by
    rw [choose, if_pos hg2]
    rfl
  rw [hchoose]
  refine ⟨fun e' he' htime => ?_, fun hnone => ?_, fun hnone => ?_⟩
  · exact ht.inj h haround.second.1.1 he'.1 (hg2.trans htime.symm)
  · exact absurd hetime (hnone e he)
  · exact absurd hetime (hnone e he)

/-- The last candidate before the target is the last eligible packet before it, when it is not
left out for being before the cursor. -/
theorem Around.lands_before
    (haround : Around (q.Candidate as c target byKey) q.time target g1 g2)
    (hnone : ∀ e, q.Eligible as target byKey e → q.time e ≠ target) :
    q.Lands as target 1 byKey g1 ↔ (byKey = true → q.KeyAhead as c target) := by
  have hlands : q.Lands as target 1 byKey g1 ↔
      ((∃ e, q.Eligible as target byKey e ∧ q.time e < target) →
        q.Eligible as target byKey g1 ∧ q.time g1 < target ∧
          ∀ e, q.Eligible as target byKey e → q.time e < target → q.time e ≤ q.time g1) := by
    constructor
    · intro h
      exact h.before hnone rfl
    · intro h
      exact ⟨fun e he htime => absurd htime (hnone e he), fun _ hzero => absurd hzero (by decide),
        fun _ _ => h⟩
  rw [hlands]
  rcases haround.before with ⟨hg1, hlt, hlast⟩ | ⟨rfl, hall⟩
  · refine iff_of_true (fun _ => ⟨hg1.1, hlt, fun e he hetime => ?_⟩)
      fun hkey hfound hcursor _ _ => ?_
    · by_cases hcand : q.Candidate as c target byKey e
      · exact hlast e hcand hetime
      · simp only [Candidate, he, true_and, not_forall] at hcand
        obtain ⟨hkey, hfound, hcursor, hbehind⟩ := hcand
        exact (not_le.mp hbehind).le.trans (hg1.2 hkey hfound hcursor)
    · exact ⟨g1, hg1.1.1, hg1.1.2 hkey hfound, hg1.2 hkey hfound hcursor, hlt⟩
  · -- no candidate is before the target
    have hlate : ¬ q.time g1 < target := not_lt.mpr haround.le
    constructor
    · rintro h hkey hfound - - ⟨e, he, hekey, hetime⟩
      exact absurd (h ⟨e, ⟨he, fun _ _ => hekey⟩, hetime⟩).2.1 hlate
    · rintro h ⟨e, he, hetime⟩
      have hcand : ¬ q.Candidate as c target byKey e := fun hcand =>
        absurd hetime (not_lt.mpr (hall e hcand))
      simp only [Candidate, he, true_and, not_forall] at hcand
      obtain ⟨hkey, hfound, hcursor, -⟩ := hcand
      obtain ⟨x, hx, hxkey, hcx, hxt⟩ := h hkey hfound hcursor
        (fun e he hekey => hnone e ⟨he, fun _ _ => hekey⟩) ⟨e, he.1, he.2 hkey hfound, hetime⟩
      have hcandx : q.Candidate as c target byKey x :=
        ⟨⟨hx, fun _ _ => hxkey⟩, fun _ _ _ => hcx⟩
      exact absurd hxt (not_lt.mpr (hall x hcandx))

/-- When what a seek chooses is right. -/
theorem Around.lands_iff (h : q.Listed as) (ht : q.Timed as)
    (haround : Around (q.Candidate as c target byKey) q.time target g1 g2) :
    q.Lands as target smallFlag byKey ((choose q.time g1 g2 target smallFlag).getD c) ↔
      (smallFlag = 1 → byKey = true → q.KeyAhead as c target) := by
  by_cases hexact : ∃ e, q.Eligible as target byKey e ∧ q.time e = target
  · obtain ⟨e, he, hetime⟩ := hexact
    refine iff_of_true (haround.lands_exact h ht he hetime) fun _ hkey hfound _ hnone => ?_
    exact absurd hetime (hnone e he.1 (he.2 hkey hfound))
  · have hnone (e : Nat) (he : q.Eligible as target byKey e) : q.time e ≠ target :=
      fun hetime => hexact ⟨e, he, hetime⟩
    have hg2 : q.time g2 ≠ target := hnone g2 haround.second.1
    rw [choose, if_neg hg2]
    by_cases hone : smallFlag = 1
    · rw [if_pos hone, hone]
      simp only [Option.getD_some, forall_const]
      exact haround.lands_before hnone
    · rw [if_neg hone]
      refine iff_of_true ⟨fun e he htime => absurd htime (hnone e he), fun _ hzero => ?_,
        fun _ h1 => absurd h1 hone⟩ fun h1 => absurd h1 hone
      rw [if_pos hzero]
      exact ⟨haround.second.1, lt_of_le_of_ne haround.le (Ne.symm hg2), fun e he hlt =>
        haround.first e (he.candidate hlt.le) hlt.le⟩

end Lands

/-- **When a seek lands on the right packet**. -/
theorem seekLands_iff {smallFlag : Int} {byKey : Bool} (h : q.Holds as)
    (hb : ∀ a ∈ as, a < q.brk) (ht : q.Timed as) (hcur : q.curPkt = some c)
    (hhead : q.headValidPts ≤ target) (htail : target ≤ q.tailValidPts) :
    q.SeekLands as target smallFlag byKey ↔
      (smallFlag = 1 → byKey = true → q.KeyAhead as c target) := by
  obtain ⟨g1, g2, q', haround, hseek, hcur', hget⟩ :=
    h.seekBypts_spec smallFlag byKey hb ht hcur hhead htail
  rw [← haround.lands_iff (h.listed hb) ht]
  constructor
  · rintro ⟨q'', g, hseek', hg, -, hlands⟩
    obtain ⟨rfl, -⟩ := Prod.mk.inj (Option.some.inj (hseek.symm.trans hseek'))
    rwa [← Option.some.inj (hg.symm.trans hcur')]
  · intro hlands
    exact ⟨q', _, hseek, hcur', hget, hlands⟩

end

/-- A packet of one byte, which is a key frame for the flags 1. -/
def frame (pts : Int) (flags : Nat) : AvPacket := ⟨pts, pts, 0, 0, 0, flags, 0, [0], []⟩

/-- Four packets, the first and the last of them key frames; the first has been read. -/
def fourFrames : PacketQueue :=
  (((((init 0 8).append 0 (frame 0 1)).append 1 (frame 10 0)).append 2 (frame 20 0)).append 3
    (frame 30 1)).get.1

/-- A seek to the next key frame. -/
theorem seekLands_fourFrames : fourFrames.SeekLands [0, 1, 2, 3] 25 0 true := by
  have hlinks : DList fourFrames.next fourFrames.priv fourFrames.firstPkt fourFrames.lastPkt
      [0, 1, 2, 3] :=
    ⟨⟨rfl, rfl, rfl, rfl, rfl⟩, ⟨rfl, rfl, rfl, rfl, rfl⟩, by decide⟩
  have hcursor : fourFrames.Cursor [0, 1, 2, 3] := ⟨by decide, .inl (by decide)⟩
  have hholds : fourFrames.Holds [0, 1, 2, 3] :=
    ⟨hlinks, by decide, hcursor, by decide, by decide, by decide, by decide⟩
  have htimed : fourFrames.Timed [0, 1, 2, 3] := by
    refine ⟨by decide, by decide, by decide, ?_, ?_⟩
    · rintro f ⟨⟩
      decide
    · rintro l ⟨⟩
      decide
  exact (seekLands_iff hholds (by decide) htimed (c := 1) rfl (by decide) (by decide)).2
    fun hzero => absurd hzero (by decide)

/-- **A seek to the key frame before the cursor**: the one behind the target is delivered. -/
theorem not_seekLands_fourFrames : ¬ fourFrames.SeekLands [0, 1, 2, 3] 25 1 true := by
  rintro ⟨q', g, hseek, hcur, -, hlands⟩
  have hgoal : (fourFrames.seekBypts 25 1 true).bind (·.1.curPkt) = some 3 := by decide
  rw [hseek] at hgoal
  obtain rfl : g = 3 := Option.some.inj (hcur.symm.trans hgoal)
  have hnone (e : Nat) (he : fourFrames.Eligible [0, 1, 2, 3] 25 true e) :
      fourFrames.time e ≠ 25 := by
    have htimes : ∀ e ∈ [0, 1, 2, 3], fourFrames.time e ≠ 25 := by decide
    exact htimes e he.1
  have hearly : fourFrames.Eligible [0, 1, 2, 3] 25 true 0 ∧ fourFrames.time 0 < 25 :=
    ⟨⟨by decide, fun _ _ => by decide⟩, by decide⟩
  exact absurd (hlands.before hnone rfl ⟨0, hearly⟩).2.1 (by decide)

end PacketQueue

end VendorAmlogic.Player
