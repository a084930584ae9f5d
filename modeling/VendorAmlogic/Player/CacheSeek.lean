import VendorAmlogic.Player.PacketCache
import VendorAmlogic.Player.SeekTarget

/-!
# Seeks in the packet cache

`avpkt_cache_queue_seek` and `avpkt_cache_seek` of
`amplayer/player/player_ffmpeg_cache.c`: the video queue is moved first, and
the audio queue to the timestamp that it went to. What a failed seek leaves of
the cursors and marks; the caller resets the cache after one.
-/

namespace VendorAmlogic.Player

open VendorAmlogic.Lib

/-! ## `avpkt_cache_seek` -/

/-- The conversions by the timebases, and `search_by_keyframe`. -/
structure SeekEnv where
  toBase : Stream → Int → Int
  ofVideo : Int → Int
  byKey : Bool

namespace Cache

/-- `avpkt_cache_queue_seek`; the time is in milliseconds. -/
def queueSeek (env : SeekEnv) (c : Cache) (s : Stream) (seekTimeMs : Int) :
    Option (PacketQueue × Int) :=
  let q := c.queue s
  if q.firstPkt = none ∨ q.lastPkt = none ∨ q.curPkt = none then some (q, -1)
  else
    let seekPts := i64 (seekTimeMs * 90)
    if q.streamIndex = c.streams.index .video then
      q.seekBypts (env.toBase s seekPts) 0 env.byKey
    else if q.streamIndex = c.streams.index .audio then
      q.seekBypts (env.toBase s seekPts) 1 env.byKey
    else some (q, -1)

/-- The video part of `avpkt_cache_seek`. -/
def videoSeek (env : SeekEnv) (c : Cache) (seekTimeMs : Int) : Option (PacketQueue × Int) :=
  if c.streams.has .video then c.queueSeek env .video seekTimeMs else some (c.queue .video, 0)

/-- The audio part of `avpkt_cache_seek`, with the `dropref_pts` of the video queue. -/
def audioSeek (env : SeekEnv) (c : Cache) (droprefPts seekTimeMs : Int) :
    Option (PacketQueue × Int) :=
  if droprefPts ≠ -1 ∧ droprefPts ≠ noPts then
    (c.queue .audio).seekBypts (env.toBase .audio (env.ofVideo droprefPts)) 1 env.byKey
  else c.queueSeek env .audio seekTimeMs

/-- `avpkt_cache_seek`. -/
def seek (env : SeekEnv) (c : Cache) (droprefPts seekTimeMs : Int) : Option (Cache × Int) := do
  let (video, ret) ← c.videoSeek env seekTimeMs
  let c := { c with queue := Function.update c.queue .video video }
  if ret = -1 then some (c, -1)
  else if c.streams.has .audio then do
    -- a seek that succeeds leaves the timestamp of its packet in `dropref_pts`
    let droprefPts :=
      if c.streams.has .video then (video.curPkt.map video.pts).getD droprefPts else droprefPts
    let (audio, ret) ← c.audioSeek env droprefPts seekTimeMs
    if ret = -1 ∧ c.trickmode then do
      let (audio, _) ← audio.seektoend
      some ({ c with queue := Function.update c.queue .audio audio }, 0)
    else some ({ c with queue := Function.update c.queue .audio audio }, ret)
  else some (c, ret)

end Cache

namespace PacketQueue

/-! ## What a seek leaves of a queue -/

/-- The cursor, the marks and the counts are the same. -/
structure Untouched (q q' : PacketQueue) (as : List Nat) : Prop where
  curPkt : q'.curPkt = q.curPkt
  used : ∀ a ∈ as, q'.used a = q.used a
  backward : q'.framesForSeekBackward = q.framesForSeekBackward
  forward : q'.framesForSeekForward = q.framesForSeekForward
  backwardsize : q'.backwardsize = q.backwardsize
  forwardsize : q'.forwardsize = q.forwardsize
  nbPackets : q'.nbPackets = q.nbPackets

/-- A packet without a pts has its dts for a timestamp. -/
def Stamped (q : PacketQueue) (as : List Nat) : Prop :=
  ∀ a ∈ as, q.pts a = if (q.pkt a).pts = noPts then (q.pkt a).dts else (q.pkt a).pts

/-- The cursor has a timestamp, or there is none to be found: among all packets from the last one
back, and from any other on. -/
def Settled (q : PacketQueue) (as : List Nat) : Prop :=
  ∀ c, q.curPkt = some c → q.hasPts c = true ∨
    ∀ p ∈ as, (q.lastPkt = some c ∨ q.frameId c ≤ q.frameId p) → q.hasPts p = false

section
variable {q q' q'' : PacketQueue} {as L : List Nat} {a c f g l : Nat}

theorem Untouched.refl (q : PacketQueue) (as : List Nat) : Untouched q q as :=
  ⟨rfl, fun _ _ => rfl, rfl, rfl, rfl, rfl, rfl⟩

/-- A move to the place of the cursor is not, when that was unread. -/
theorem MovedTo.untouched_iff (hm : MovedTo q q' as c) (h : q.Listed as) (hc : q.AtCursor as c)
    (hcur : q.curPkt = some c) : Untouched q q' as ↔ q.used c = false := by
  constructor
  · intro hu
    have hread := hm.flags c hc.1
    rw [hu.used c hc.1] at hread
    exact Bool.eq_false_iff.mpr fun htrue => absurd (hread.1 htrue) (lt_irrefl _)
  · intro hunread
    have hflags : ∀ a ∈ as, q.used a = true ↔ q.frameId a < q.frameId c := by
      rcases hc.2 with hflags | ⟨hall, -⟩
      · exact hflags
      · rw [hall c hc.1] at hunread
        cases hunread
    have hused (a : Nat) (ha : a ∈ as) : q'.used a = q.used a := by
      rw [Bool.eq_iff_iff, hm.flags a ha, hflags a ha]
    have hcur' : q'.curPkt = some c := by rw [hm.same]
    refine ⟨hcur'.trans hcur.symm, hused, ?_, ?_, ?_, ?_, ?_⟩
    · rw [hm.balanced.backward, h.balanced.backward, List.filter_congr hused]
    · have hunused (a : Nat) (ha : a ∈ as) : (!q'.used a) = !q.used a := by rw [hused a ha]
      rw [hm.balanced.forward, h.balanced.forward, List.filter_congr hunused]
    · rw [hm.same]
    · rw [hm.same]
    · rw [hm.same]

/-- The search for a timestamp finds none where the cursor is settled. -/
theorem Listed.nearest_none (h : q.Listed as) (hl : q.lastPkt = some l) (hcur : q.curPkt = some c)
    (hc : c ∈ as) : q.nearest l c = some none ↔ q.Settled as := by
  have hlm : l ∈ as := List.mem_of_getLast? (hl.symm.trans h.links.last_eq).symm
  have hsettled : q.Settled as ↔ q.hasPts c = true ∨
      ∀ p ∈ as, (q.lastPkt = some c ∨ q.frameId c ≤ q.frameId p) → q.hasPts p = false := by
    constructor
    · intro hs
      exact hs c hcur
    · rintro hs c' hc'
      obtain rfl : c = c' := Option.some.inj (hcur.symm.trans hc')
      exact hs
  rw [hsettled]
  obtain ⟨xs, ys, has, hnext, hpriv, hlen, hlen', hmem, -⟩ := h.from_mem hc
  unfold PacketQueue.nearest
  by_cases hpts : q.hasPts c = true
  · rw [if_pos hpts]
    exact iff_of_true rfl (.inl hpts)
  · rw [if_neg hpts, or_iff_right hpts]
    by_cases hend : q.frameId c = q.frameId l
    · obtain rfl : c = l := h.frameId_inj hc hlm hend
      have hall (p : Nat) : p ∈ c :: xs.reverse ↔ p ∈ as := by
        have hys : ys = [] := by
          by_contra hne
          obtain ⟨y, hy⟩ := List.exists_mem_of_ne_nil ys hne
          have hyas : y ∈ as := ((hmem y).1 (List.mem_cons_of_mem c hy)).1
          have hids : (c :: ys).Pairwise fun a b => q.frameId a < q.frameId b :=
            (List.pairwise_append.mp (has ▸ h.ids)).2.1
          exact absurd ((List.pairwise_cons.mp hids).1 y hy) (not_lt.mpr (h.le_last hl hyas))
        rw [has, hys]
        simp [or_comm]
      rw [if_pos hend, findFrom_eq _ hpriv hlen', Option.some.injEq, List.find?_eq_none]
      constructor
      · intro hnone p hp _
        exact Bool.eq_false_iff.mpr (hnone p ((hall p).2 hp))
      · intro hnone p hp
        rw [hnone p ((hall p).1 hp) (.inl hl)]
        exact Bool.false_ne_true
    · have hne : q.lastPkt ≠ some c := by
        rw [hl]
        rintro ⟨⟩
        exact hend rfl
      rw [if_neg hend, findFrom_eq _ hnext hlen, Option.some.injEq, List.find?_eq_none]
      constructor
      · intro hnone p hp hside
        exact Bool.eq_false_iff.mpr (hnone p ((hmem p).2 ⟨hp, hside.resolve_left hne⟩))
      · intro hnone p hp
        obtain ⟨hp, hle⟩ := (hmem p).1 hp
        rw [hnone p hp (.inr hle)]
        exact Bool.false_ne_true

/-- What a packet that was searched for has. -/
theorem Listed.nearest_some (h : q.Listed as) (hc : c ∈ as)
    (ho : q.nearest l c = some (some g)) : q.hasPts c = false ∧ q.hasPts g = true := by
  obtain ⟨xs, ys, has, hnext, hpriv, hlen, hlen', -, -⟩ := h.from_mem hc
  unfold PacketQueue.nearest at ho
  split at ho
  · cases ho
  · rename_i hpts
    refine ⟨Bool.eq_false_iff.mpr hpts, ?_⟩
    split at ho
    · rw [findFrom_eq _ hpriv hlen'] at ho
      exact List.find?_some (Option.some.inj ho)
    · rw [findFrom_eq _ hnext hlen] at ho
      exact List.find?_some (Option.some.inj ho)

/-- A queue with a cursor has a first and a last packet. -/
theorem Holds.ends (h : q.Holds as) (hcur : q.curPkt = some c) :
    ∃ f l, q.firstPkt = some f ∧ q.lastPkt = some l := by
  have hc := (h.cur_mem hcur).1
  rw [h.links.first_eq, h.links.last_eq]
  cases as with
  | nil => exact absurd hc List.not_mem_nil
  | cons a as => exact ⟨a, _, rfl, List.getLast?_cons⟩

theorem seekBypts_none {seekPts smallFlag : Int} {byKey : Bool} (hcur : q.curPkt = none) :
    q.seekBypts seekPts smallFlag byKey = some (q, -1) := by
  unfold PacketQueue.seekBypts
  rw [hcur]
  split
  · rename_i heq
    cases heq
  · rfl

theorem seekBypts_ret {seekPts smallFlag ret : Int} {byKey : Bool}
    (hseek : q.seekBypts seekPts smallFlag byKey = some (q', ret)) : ret = -1 ∨ ret = 0 := by
  unfold PacketQueue.seekBypts at hseek
  split at hseek
  · obtain ⟨q1, -, hseek⟩ := Option.bind_eq_some_iff.mp hseek
    obtain ⟨c1, -, hseek⟩ := Option.bind_eq_some_iff.mp hseek
    obtain ⟨goal, -, hseek⟩ := Option.bind_eq_some_iff.mp hseek
    split at hseek
    · cases hseek
      exact .inl rfl
    · split at hseek
      · obtain ⟨q2, -, hseek⟩ := Option.bind_eq_some_iff.mp hseek
        cases hseek
        exact .inr rfl
      · obtain ⟨q2, -, hseek⟩ := Option.bind_eq_some_iff.mp hseek
        cases hseek
        exact .inr rfl
  · cases hseek
    exact .inl rfl

/-- The result of a seek from a cursor, with the queue after the cursor has been moved to a
timestamp. -/
theorem seekBypts_some {seekPts smallFlag : Int} {byKey : Bool} {ret : Int} {q1 : PacketQueue}
    {c1 : Nat} (hf : q.firstPkt = some f) (hl : q.lastPkt = some l) (hcur : q.curPkt = some c)
    (hq1 : q.normalize l c = some q1) (hcur1 : q1.curPkt = some c1)
    (hseek : q.seekBypts seekPts smallFlag byKey = some (q', ret)) :
    (ret = -1 ∧ q' = q1 ∧ q1.seekGoal f l c1 seekPts smallFlag byKey = some none) ∨
      (ret = 0 ∧ ∃ back g, q1.seekGoal f l c1 seekPts smallFlag byKey = some (some (back, g)) ∧
        if back ∧ q1.pts g ≤ q1.pts c1 then q1.moveBack g c1 = some q'
        else q1.moveForward c1 g = some q') := by
  unfold PacketQueue.seekBypts at hseek
  rw [hf, hl, hcur] at hseek
  simp only [hq1, hcur1, Option.bind_eq_bind, Option.bind_some] at hseek
  obtain ⟨goal, hgoal, hseek⟩ := Option.bind_eq_some_iff.mp hseek
  cases goal with
  | none =>
    cases hseek
    exact .inl ⟨rfl, rfl, hgoal⟩
  | some goal =>
    obtain ⟨back, g⟩ := goal
    refine .inr ?_
    dsimp only at hseek
    split at hseek
    · rename_i hback
      obtain ⟨q2, hmove, heq⟩ := Option.bind_eq_some_iff.mp hseek
      cases heq
      exact ⟨rfl, back, g, hgoal, by rwa [if_pos hback]⟩
    · rename_i hback
      obtain ⟨q2, hmove, heq⟩ := Option.bind_eq_some_iff.mp hseek
      cases heq
      exact ⟨rfl, back, g, hgoal, by rwa [if_neg hback]⟩

/-- **A seek that fails**: it has moved the cursor to a timestamp, unless that was settled. -/
theorem Holds.seekBypts_fails {seekPts smallFlag : Int} {byKey : Bool} (h : q.Holds as)
    (hb : ∀ a ∈ as, a < q.brk) (hseek : q.seekBypts seekPts smallFlag byKey = some (q', -1)) :
    Untouched q q' as ↔ q.Settled as := by
  have hl := h.listed hb
  cases hcur : q.curPkt with
  | none =>
    rw [seekBypts_none hcur] at hseek
    cases hseek
    refine iff_of_true (.refl q as) fun c hc => ?_
    rw [hcur] at hc
    cases hc
  | some c =>
    have hc := h.cur_mem hcur
    obtain ⟨f, l, hf, hlast⟩ := h.ends hcur
    obtain ⟨o, q1, ho, hq1, hcur1, -, -, hmoved⟩ := hl.normalize_cur (l := l) hc hcur
    rcases seekBypts_some hf hlast hcur hq1 hcur1 hseek with ⟨-, rfl, -⟩ | ⟨hret, -⟩
    · rw [← hl.nearest_none hlast hcur hc.1, ho, Option.some.injEq]
      cases o with
      | none =>
        rcases hmoved with rfl | ⟨⟨g, hg⟩, -⟩
        · exact iff_of_true (.refl _ as) rfl
        · cases hg
      | some g =>
        obtain ⟨hcpts, hgpts⟩ := hl.nearest_some hc.1 ho
        have hne : g ≠ c := by
          rintro rfl
          rw [hcpts] at hgpts
          cases hgpts
        refine iff_of_false (fun hu => hne ?_) (by simp)
        exact Option.some.inj ((hcur1.symm.trans hu.curPkt).trans hcur)
    · cases hret

/-! ## Where a seek to the next packet goes -/

/-- The first of the packets with `P`. -/
def First (q : PacketQueue) (P : Nat → Prop) (m : Nat) : Prop :=
  P m ∧ ∀ p, P p → q.frameId m ≤ q.frameId p

theorem First.congr {P P' : Nat → Prop} {m : Nat} (h : q.First P m) (hiff : ∀ p, P p ↔ P' p) :
    q.First P' m :=
  ⟨(hiff m).1 h.1, fun p hp => h.2 p ((hiff p).2 hp)⟩

/-- A search ends at the first candidate that is not before the target. -/
theorem walk_first (cand : Nat → Bool) (val : Nat → Int) (target : Int) {s : Search}
    (hl : L.getLast? = some l) (hids : L.Pairwise fun a b => q.frameId a < q.frameId b)
    (hs : s.success = false) :
    ((walk (q.searchBody l cand val target) L s).1.success = false ∧
        ∀ p ∈ L, cand p = true → val p < target) ∨
      ((walk (q.searchBody l cand val target) L s).1.success = true ∧
        ∃ m, (walk (q.searchBody l cand val target) L s).1.m2 = some m ∧
          q.First (fun p => p ∈ L ∧ cand p = true ∧ target ≤ val p) m) := by
  induction L generalizing s with
  | nil => simp at hl
  | cons a L ih =>
    obtain ⟨hlater, hidsL⟩ := List.pairwise_cons.mp hids
    rw [walk_searchBody hl hids]
    by_cases hhere : cand a = true ∧ target ≤ val a
    · rw [if_pos hhere]
      refine .inr ⟨rfl, a, ?_, ⟨List.mem_cons_self, hhere⟩, fun p hp => ?_⟩
      · exact Search.push_m2 s a
      · rcases List.mem_cons.mp hp.1 with rfl | hmem
        · exact le_refl _
        · exact (hlater p hmem).le
    · rw [if_neg hhere]
      have hs' : (if cand a = true then s.push a else s).success = false := by
        split
        · rw [Search.push_success, hs]
        · exact hs
      have hmiss (p : Nat) (hp : p ∈ a :: L) (hc : cand p = true) (hle : target ≤ val p) :
          p ∈ L := by
        rcases List.mem_cons.mp hp with rfl | hmem
        · exact absurd ⟨hc, hle⟩ hhere
        · exact hmem
      cases L with
      | nil =>
        refine .inl ⟨hs', fun p hp hc => not_le.mp fun hle => ?_⟩
        exact absurd (hmiss p hp hc hle) List.not_mem_nil
      | cons b L =>
        rcases ih (by rwa [List.getLast?_cons_cons] at hl) hidsL hs' with
          ⟨hfail, hnone⟩ | ⟨hsucc, m, hm2, hm, hfirst⟩
        · refine .inl ⟨hfail, fun p hp hc => not_le.mp fun hle => ?_⟩
          exact absurd (hnone p (hmiss p hp hc hle) hc) (not_lt.mpr hle)
        · refine .inr ⟨hsucc, m, hm2, ⟨List.mem_cons_of_mem a hm.1, hm.2⟩, fun p hp => ?_⟩
          exact hfirst p ⟨hmiss p hp.1 hp.2.1 hp.2.2, hp.2⟩

/-- A search from a packet on. -/
theorem Listed.searchFrom_first (cand : Nat → Bool) (val : Nat → Int) (target : Int)
    (m2 : Option Nat) (h : q.Listed as) (hl : q.lastPkt = some l) (ha : a ∈ as) :
    ∃ r, q.searchFrom l cand val target a ⟨none, m2, false⟩ = some r ∧
      ((r.success = false ∧ ∀ p ∈ as, q.frameId a ≤ q.frameId p → cand p = true → val p < target) ∨
        (r.success = true ∧ ∃ m, r.m2 = some m ∧
          q.First (fun p => p ∈ as ∧ q.frameId a ≤ q.frameId p ∧ cand p = true ∧ target ≤ val p)
            m)) := by
  obtain ⟨-, ys, -, hlast, hids, hmem, hsearch⟩ := h.searched hl ha
  refine ⟨_, hsearch cand val target _, ?_⟩
  have hs : (⟨none, m2, false⟩ : Search).success = false := rfl
  rcases walk_first cand val target hlast hids hs with ⟨hfail, hnone⟩ | ⟨hsucc, m, hm2, hm⟩
  · exact .inl ⟨hfail, fun p hp hle hc => hnone p ((hmem p).2 ⟨hp, hle⟩) hc⟩
  · exact .inr ⟨hsucc, m, hm2, hm.congr fun p => by rw [hmem, and_assoc]⟩

/-- Some key frame is not before the target. -/
def KeyTimed (q : PacketQueue) (as : List Nat) (target : Int) : Prop :=
  ∃ p ∈ as, q.hasPts p = true ∧ (q.pkt p).key = true ∧ target ≤ q.pts p

/-- Where a seek to the next packet goes when the target is not behind the cursor: the first packet
that is not before the target, among key frames if these are asked for and there is one. -/
def Landing (q : PacketQueue) (as : List Nat) (target : Int) (byKey : Bool) (g : Nat) : Prop :=
  q.First (fun p => p ∈ as ∧ q.hasPts p = true ∧ target ≤ q.pts p ∧
    (byKey = true → q.KeyTimed as target → (q.pkt p).key = true)) g

theorem Landing.unique {target : Int} {byKey : Bool} (h : q.Listed as)
    (ha : q.Landing as target byKey a) (hc : q.Landing as target byKey c) : a = c :=
  h.frameId_inj ha.1.1 hc.1.1 (le_antisymm (ha.2 c hc.1) (hc.2 a ha.1))

/-- The searches from the first packet on. -/
theorem Listed.searchTwice_landing {target : Int} {byKey : Bool} {s : Search} (h : q.Listed as)
    (hf : q.firstPkt = some f) (hl : q.lastPkt = some l)
    (hs : q.searchTwice f l f (fun p => q.hasPts p && (!byKey || (q.pkt p).key)) q.pts target =
      some s) (hsucc : s.success = true) :
    ∃ m, s.m2 = some m ∧ q.Landing as target byKey m := by
  have hfm : f ∈ as := List.mem_of_head? (hf.symm.trans h.links.first_eq).symm
  have hfirst (p : Nat) (hp : p ∈ as) : q.frameId f ≤ q.frameId p := h.first_le hf hp
  have hcand (p : Nat) : (q.hasPts p && (!byKey || (q.pkt p).key)) = true ↔
      q.hasPts p = true ∧ (byKey = true → (q.pkt p).key = true) := by
    cases byKey <;> simp
  obtain ⟨r, hr, hcase⟩ := h.searchFrom_first
    (fun p => q.hasPts p && (!byKey || (q.pkt p).key)) q.pts target none hl hfm
  rw [PacketQueue.searchTwice, hr, Option.bind_eq_bind, Option.bind_some] at hs
  rcases hcase with ⟨hfail, hnone⟩ | ⟨hrs, m, hm2, hm⟩
  · -- no key frame: the search among all packets
    rw [if_neg (by simp [hfail])] at hs
    have hkey : ¬ q.KeyTimed as target := by
      rintro ⟨p, hp, hpts, hkey, hle⟩
      exact absurd (hnone p hp (hfirst p hp) ((hcand p).2 ⟨hpts, fun _ => hkey⟩)) (not_lt.mpr hle)
    obtain ⟨r', hr', hcase⟩ := h.searchFrom_first q.hasPts q.pts target r.m2 hl hfm
    obtain rfl : r' = s := Option.some.inj (hr'.symm.trans hs)
    rcases hcase with ⟨hfail', -⟩ | ⟨-, m, hm2, hm⟩
    · rw [hfail'] at hsucc
      cases hsucc
    · refine ⟨m, hm2, hm.congr fun p => ?_⟩
      constructor
      · rintro ⟨hp, -, hpts, hle⟩
        exact ⟨hp, hpts, hle, fun _ hyes => absurd hyes hkey⟩
      · rintro ⟨hp, hpts, hle, -⟩
        exact ⟨hp, hfirst p hp, hpts, hle⟩
  · rw [if_pos hrs] at hs
    obtain rfl := Option.some.inj hs
    refine ⟨m, hm2, hm.congr fun p => ?_⟩
    constructor
    · rintro ⟨hp, -, hc, hle⟩
      exact ⟨hp, ((hcand p).1 hc).1, hle, fun hb _ => ((hcand p).1 hc).2 hb⟩
    · rintro ⟨hp, hpts, hle, hkey⟩
      refine ⟨hp, hfirst p hp, (hcand p).2 ⟨hpts, fun hb => hkey hb ?_⟩, hle⟩
      obtain ⟨hmas, -, hmc, hmle⟩ := hm.1
      exact ⟨m, hmas, ((hcand m).1 hmc).1, ((hcand m).1 hmc).2 hb, hmle⟩

/-- The searches from the cursor on give a packet that is not before the target. -/
theorem Listed.searchTwice_behind {target : Int} {byKey : Bool} {s : Search} (h : q.Listed as)
    (hstamp : q.Stamped as) (hf : q.firstPkt = some f) (hl : q.lastPkt = some l) (hc : c ∈ as)
    (hs : q.searchTwice f l c (fun p => (q.pkt p).pts ≠ noPts && (!byKey || (q.pkt p).key))
      (fun p => (q.pkt p).pts) target = some s) (hsucc : s.success = true) :
    ∃ m, s.m2 = some m ∧ q.hasPts m = true ∧ target ≤ q.pts m := by
  have hfm : f ∈ as := List.mem_of_head? (hf.symm.trans h.links.first_eq).symm
  obtain ⟨r, hr, hcase⟩ := h.searchFrom_first
    (fun p => (q.pkt p).pts ≠ noPts && (!byKey || (q.pkt p).key)) (fun p => (q.pkt p).pts) target
    none hl hc
  rw [PacketQueue.searchTwice, hr, Option.bind_eq_bind, Option.bind_some] at hs
  rcases hcase with ⟨hfail, -⟩ | ⟨hrs, m, hm2, ⟨hmas, -, hmc, hle⟩, -⟩
  · rw [if_neg (by simp [hfail])] at hs
    obtain ⟨r', hr', hcase⟩ := h.searchFrom_first q.hasPts q.pts target r.m2 hl hfm
    obtain rfl : r' = s := Option.some.inj (hr'.symm.trans hs)
    rcases hcase with ⟨hfail', -⟩ | ⟨-, m, hm2, ⟨-, -, hpts, hle⟩, -⟩
    · rw [hfail'] at hsucc
      cases hsucc
    · exact ⟨m, hm2, hpts, hle⟩
  · rw [if_pos hrs] at hs
    obtain rfl := Option.some.inj hs
    have hne : (q.pkt m).pts ≠ noPts := by
      simp only [Bool.and_eq_true, decide_eq_true_eq] at hmc
      exact hmc.1
    have hpts : q.pts m = (q.pkt m).pts := by rw [hstamp m hmas, if_neg hne]
    refine ⟨m, hm2, ?_, hpts ▸ hle⟩
    rw [hasPts, hpts]
    exact decide_eq_true hne

/-- With `small_flag` 0 the second candidate is taken. -/
theorem choose_zero (val : Nat → Int) (m1 m2 : Nat) (target : Int) :
    choose val m1 m2 target 0 = some m2 := by
  simp [choose]

/-- Where a seek to the next packet goes: to the landing for a target up to the cursor, and
otherwise to a packet that is not before the target. -/
theorem Listed.seekGoal_next {target : Int} {byKey back : Bool} (h : q.Listed as)
    (hstamp : q.Stamped as) (hf : q.firstPkt = some f) (hl : q.lastPkt = some l) (hc : c ∈ as)
    (hgoal : q.seekGoal f l c target 0 byKey = some (some (back, g))) :
    q.headValidPts ≤ target ∧ q.hasPts g = true ∧ target ≤ q.pts g ∧
      (target ≤ q.pts c → back = true ∧ q.Landing as target byKey g) := by
  unfold PacketQueue.seekGoal at hgoal
  by_cases hhead : target < q.headValidPts
  · rw [if_pos hhead] at hgoal
    cases hgoal
  · rw [if_neg hhead] at hgoal
    refine ⟨not_lt.mp hhead, ?_⟩
    by_cases hside : target ≤ q.pts c
    · rw [if_pos hside] at hgoal
      obtain ⟨s, hs, hgoal⟩ := Option.bind_eq_some_iff.mp hgoal
      cases hsucc : s.success with
      | false => simp [hsucc] at hgoal
      | true =>
        obtain ⟨m, hm2, hm⟩ := h.searchTwice_landing hf hl hs hsucc
        simp only [hsucc, if_true, hm2, Option.bind_eq_bind, Option.bind_some, choose_zero,
          Option.getD_some] at hgoal
        obtain ⟨m1, -, heq⟩ := Option.bind_eq_some_iff.mp hgoal
        cases heq
        exact ⟨hm.1.2.1, hm.1.2.2.1, fun _ => ⟨rfl, hm⟩⟩
    · rw [if_neg hside] at hgoal
      by_cases htail : target ≤ q.tailValidPts
      · rw [if_pos htail] at hgoal
        obtain ⟨s, hs, hgoal⟩ := Option.bind_eq_some_iff.mp hgoal
        cases hsucc : s.success with
        | false => simp [hsucc] at hgoal
        | true =>
          obtain ⟨m, hm2, hpts, hle⟩ := h.searchTwice_behind hstamp hf hl hc hs hsucc
          simp only [hsucc, if_true, hm2, Option.bind_eq_bind, Option.bind_some, choose_zero,
            Option.getD_some] at hgoal
          obtain ⟨m1, -, heq⟩ := Option.bind_eq_some_iff.mp hgoal
          cases heq
          exact ⟨hpts, hle, fun hyes => absurd hyes hside⟩
      · rw [if_neg htail] at hgoal
        cases hgoal

/-- A loop that marks leaves the cursor. -/
theorem Listed.markFrom_cur {v : Bool} {r : PacketQueue × Option Nat} (h : q.Listed as)
    (guard : Nat → Bool) (ha : a ∈ as)
    (hguard : ∀ x y, q.frameId x < q.frameId y → guard y = true → guard x = true)
    (hr : PacketQueue.markFrom (setUsed v) guard a q = some r) : r.1.curPkt = q.curPkt := by
  obtain ⟨r', hr', hrem, -⟩ := h.markFrom guard (marks_setUsed h.links.nodup v) ha hguard
    fun _ _ _ _ => trivial
  obtain rfl := Option.some.inj (hr'.symm.trans hr)
  rw [hrem.same]

/-- Wherever a seek goes, the cursor is there. -/
theorem Listed.move_cur {back : Bool} (h : q.Listed as) (hc : c ∈ as) (hg : g ∈ as)
    (hmove : if back ∧ q.pts g ≤ q.pts c then q.moveBack g c = some q'
      else q.moveForward c g = some q') : q'.curPkt = some g := by
  split at hmove
  · obtain ⟨r, hr, heq⟩ := Option.bind_eq_some_iff.mp hmove
    cases heq
    refine ((h.moveTo (g := g)).markFrom_cur (fun p => q.frameId p ≤ q.frameId c) hg ?_ hr).trans
      rfl
    intro x y hxy hy
    have hxy : q.frameId x < q.frameId y := hxy
    exact decide_eq_true (hxy.le.trans (of_decide_eq_true hy))
  · obtain ⟨r, hr, heq⟩ := Option.bind_eq_some_iff.mp hmove
    have hcur : r.1.curPkt = some g := by
      refine ((h.moveTo (g := g)).markFrom_cur (fun p => q.frameId p < q.frameId g) hc ?_ hr).trans
        rfl
      intro x y hxy hy
      have hxy : q.frameId x < q.frameId y := hxy
      exact decide_eq_true (hxy.trans (of_decide_eq_true hy))
    cases hstop : r.2 with
    | none =>
      rw [hstop] at heq
      cases heq
      exact hcur
    | some p =>
      rw [hstop] at heq
      cases heq
      unfold rearm setUsed
      split
      · split
        · exact hcur
        · exact hcur
      · exact hcur

/-- The cursor is unread, and a seek to the next packet goes there. -/
def Still (q : PacketQueue) (as : List Nat) (target : Int) (byKey : Bool) : Prop :=
  ∃ c, q.curPkt = some c ∧ q.used c = false ∧ q.Landing as target byKey c

/-- **A seek that succeeds**: it is not seen where the cursor is still. -/
theorem Holds.seekBypts_stays {target : Int} {byKey : Bool} (h : q.Holds as)
    (hb : ∀ a ∈ as, a < q.brk) (hstamp : q.Stamped as)
    (hseek : q.seekBypts target 0 byKey = some (q', 0)) :
    Untouched q q' as ↔ q.Still as target byKey := by
  have hl := h.listed hb
  cases hcur : q.curPkt with
  | none =>
    rw [seekBypts_none hcur] at hseek
    cases hseek
  | some c =>
    have hc := h.cur_mem hcur
    obtain ⟨f, l, hf, hlast⟩ := h.ends hcur
    have hfm : f ∈ as := List.mem_of_head? (hf.symm.trans hl.links.first_eq).symm
    obtain ⟨o, q1, ho, hq1, hcur1, hc1, hl1, hmoved⟩ := hl.normalize_cur (l := l) hc hcur
    rcases seekBypts_some hf hlast hcur hq1 hcur1 hseek with ⟨hret, -⟩ | ⟨-, back, g, hgoal, hmove⟩
    · cases hret
    obtain ⟨goal, hgoal', hmem⟩ := hl1.seekGoal l target 0 byKey hfm hc1.1
    obtain rfl := Option.some.inj (hgoal.symm.trans hgoal')
    have hg : g ∈ as := hmem back g rfl
    have hcur' : q'.curPkt = some g := hl1.move_cur hc1.1 hg hmove
    -- where the cursor has a timestamp the seek starts from there
    have hstart (hpts : q.hasPts c = true) : q1 = q ∧ o.getD c = c := by
      unfold PacketQueue.nearest at ho
      rw [if_pos hpts] at ho
      obtain rfl := Option.some.inj ho
      rcases hmoved with rfl | ⟨⟨g, hg⟩, -⟩
      · exact ⟨rfl, rfl⟩
      · cases hg
    have hgoalq : q.seekGoal f l (o.getD c) target 0 byKey = some (some (back, g)) := by
      rcases hmoved with rfl | ⟨-, hm⟩
      · exact hgoal
      · rwa [hm.seekGoal] at hgoal
    obtain ⟨-, hgpts, hle, hback⟩ := hl.seekGoal_next hstamp hf hlast hc1.1 hgoalq
    have hstays (hpts : q.hasPts c = true) (hside : back = true) (hgc : g = c) :
        Untouched q q' as ↔ q.used c = false := by
      obtain ⟨rfl, hcc⟩ := hstart hpts
      rw [hcc, hgc, if_pos ⟨hside, le_refl _⟩] at hmove
      obtain ⟨q2, hq2, hm⟩ := hl.moveBack hc hc.1 (le_refl _)
      obtain rfl := Option.some.inj (hq2.symm.trans hmove)
      exact hm.untouched_iff hl hc hcur
    constructor
    · intro hu
      have hgc : g = c := Option.some.inj ((hcur'.symm.trans hu.curPkt).trans hcur)
      have hpts : q.hasPts c = true := hgc ▸ hgpts
      obtain ⟨hback, hland⟩ := hback ((hstart hpts).2.symm ▸ hgc ▸ hle)
      exact ⟨c, hcur, (hstays hpts hback hgc).1 hu, hgc ▸ hland⟩
    · rintro ⟨c', hc', hunread, hland⟩
      obtain rfl : c = c' := Option.some.inj (hcur.symm.trans hc')
      obtain ⟨hpts, hle, -⟩ := hland.1.2
      obtain ⟨hback, hlandg⟩ := hback ((hstart hpts).2.symm ▸ hle)
      exact (hstays hpts hback (hlandg.unique hl hland)).2 hunread

end

end PacketQueue

/-! ## What a failed seek leaves of the cache -/

namespace Cache

/-- The packets of each queue, with their timestamps. -/
structure Holds (c : Cache) (as : Stream → List Nat) : Prop where
  queue : ∀ s, (c.queue s).Holds (as s)
  below : ∀ s, ∀ a ∈ as s, a < (c.queue s).brk
  stamped : ∀ s, (c.queue s).Stamped (as s)
  index : ∀ s, (c.queue s).streamIndex = c.streams.index s

/-- The queues for audio and video are as before. -/
def Untouched (c c' : Cache) (as : Stream → List Nat) : Prop :=
  (c.queue .video).Untouched (c'.queue .video) (as .video) ∧
    (c.queue .audio).Untouched (c'.queue .audio) (as .audio)

/-- The queue whose seek fails is settled, and a video queue whose seek does not is still. -/
structure FailsInPlace (env : SeekEnv) (c : Cache) (as : Stream → List Nat) (seekTimeMs : Int) :
    Prop where
  video : c.streams.has .video = true → ∀ q, c.queueSeek env .video seekTimeMs = some (q, -1) →
    (c.queue .video).Settled (as .video)
  still : c.streams.has .video = true → ∀ q, c.queueSeek env .video seekTimeMs = some (q, 0) →
    (c.queue .video).Still (as .video) (env.toBase .video (i64 (seekTimeMs * 90))) env.byKey
  audio : (c.streams.has .video = true → ∃ q, c.queueSeek env .video seekTimeMs = some (q, 0)) →
    (c.queue .audio).Settled (as .audio)

section
variable {env : SeekEnv} {c c' : Cache} {as : Stream → List Nat} {q : PacketQueue}
  {droprefPts seekTimeMs ret : Int}

/-- A seek of a queue by its timestamps; for video it is one to the next packet. -/
theorem Holds.queueSeek {s : Stream} (h : c.Holds as) (hs : s ≠ .sub)
    (hseek : c.queueSeek env s seekTimeMs = some (q, ret)) :
    (c.queue s).curPkt = none ∧ q = c.queue s ∧ ret = -1 ∨
      ∃ smallFlag, (s = .video → smallFlag = 0) ∧
        (c.queue s).seekBypts (env.toBase s (i64 (seekTimeMs * 90))) smallFlag env.byKey =
          some (q, ret) := by
  unfold Cache.queueSeek at hseek
  dsimp only at hseek
  split at hseek
  · rename_i hnone
    cases hseek
    refine .inl ⟨?_, rfl, rfl⟩
    cases hcur : (c.queue s).curPkt with
    | none => rfl
    | some a =>
      obtain ⟨f, l, hf, hl⟩ := (h.queue s).ends hcur
      simp [hf, hl, hcur] at hnone
  · split at hseek
    · exact .inr ⟨0, fun _ => rfl, hseek⟩
    · rename_i hvideo
      split at hseek
      · refine .inr ⟨1, ?_, hseek⟩
        rintro rfl
        exact absurd (h.index .video) hvideo
      · rename_i haudio
        cases s with
        | sub => exact absurd rfl hs
        | video => exact absurd (h.index .video) hvideo
        | audio => exact absurd (h.index .audio) haudio

/-- A seek of a queue that fails. -/
theorem Holds.queueSeek_fails {s : Stream} (h : c.Holds as) (hs : s ≠ .sub)
    (hseek : c.queueSeek env s seekTimeMs = some (q, -1)) :
    (c.queue s).Untouched q (as s) ↔ (c.queue s).Settled (as s) := by
  rcases h.queueSeek hs hseek with ⟨hcur, rfl, -⟩ | ⟨smallFlag, -, hseek⟩
  · refine iff_of_true (.refl _ _) fun a ha => ?_
    rw [hcur] at ha
    cases ha
  · exact (h.queue s).seekBypts_fails (h.below s) hseek

/-- A seek of the audio queue that fails. -/
theorem Holds.audioSeek_fails (h : c.Holds as)
    (hseek : c.audioSeek env droprefPts seekTimeMs = some (q, -1)) :
    (c.queue .audio).Untouched q (as .audio) ↔ (c.queue .audio).Settled (as .audio) := by
  unfold audioSeek at hseek
  split at hseek
  · exact (h.queue .audio).seekBypts_fails (h.below .audio) hseek
  · exact h.queueSeek_fails (by decide) hseek

/-- A seek of the video queue that succeeds. -/
theorem Holds.videoSeek_stays (h : c.Holds as)
    (hseek : c.queueSeek env .video seekTimeMs = some (q, 0)) :
    (c.queue .video).Untouched q (as .video) ↔ (c.queue .video).Still (as .video)
      (env.toBase .video (i64 (seekTimeMs * 90))) env.byKey := by
  rcases h.queueSeek (by decide) hseek with ⟨-, -, hret⟩ | ⟨smallFlag, hflag, hseek⟩
  · cases hret
  · rw [hflag rfl] at hseek
    exact (h.queue .video).seekBypts_stays (h.below .video) (h.stamped .video) hseek

/-- A search does not look at the video queue when it moves the audio queue. -/
theorem audioSeek_update (env : SeekEnv) (c : Cache) (video : PacketQueue)
    (droprefPts seekTimeMs : Int) :
    ({ c with queue := Function.update c.queue .video video } : Cache).audioSeek env droprefPts
      seekTimeMs = c.audioSeek env droprefPts seekTimeMs := by
  have haudio : Function.update c.queue .video video .audio = c.queue .audio :=
    Function.update_of_ne (by decide) ..
  simp only [audioSeek, Cache.queueSeek, haudio]

/-- What a seek that fails has done: the video queue was moved by its own seek, and the audio queue,
if that one succeeded, by the other. -/
theorem Holds.seek_fails (h : c.Holds as) (htrick : c.trickmode = false)
    (hseek : c.seek env droprefPts seekTimeMs = some (c', -1)) :
    (c.streams.has .video = true ∧
        c.queueSeek env .video seekTimeMs = some (c'.queue .video, -1) ∧
        c'.queue .audio = c.queue .audio) ∨
      ((c.streams.has .video = true →
          c.queueSeek env .video seekTimeMs = some (c'.queue .video, 0)) ∧
        (c.streams.has .video = false → c'.queue .video = c.queue .video) ∧
        ∃ dropref, c.audioSeek env dropref seekTimeMs = some (c'.queue .audio, -1)) := by
  unfold Cache.seek at hseek
  obtain ⟨⟨video, ret⟩, hvideo, hseek⟩ := Option.bind_eq_some_iff.mp hseek
  unfold videoSeek at hvideo
  have hret : ret = -1 ∨ ret = 0 := by
    split at hvideo
    · rcases h.queueSeek (by decide) hvideo with ⟨-, -, hret⟩ | ⟨smallFlag, -, hvideo⟩
      · exact .inl hret
      · exact PacketQueue.seekBypts_ret hvideo
    · cases hvideo
      exact .inr rfl
  have hself : Function.update c.queue .video video .video = video := Function.update_self ..
  have haudio : Function.update c.queue .video video .audio = c.queue .audio :=
    Function.update_of_ne (by decide) ..
  have hvid (audio : PacketQueue) : Function.update (Function.update c.queue .video video) .audio
      audio .video = video := (Function.update_of_ne (by decide) ..).trans hself
  dsimp only at hseek
  by_cases hfail : ret = -1
  · rw [if_pos hfail] at hseek
    cases hseek
    split at hvideo
    · rename_i hhas
      rw [hfail] at hvideo
      refine .inl ⟨hhas, ?_, haudio⟩
      dsimp only
      rw [hself, hvideo]
    · cases hvideo
      cases hfail
  · rw [if_neg hfail] at hseek
    obtain rfl := hret.resolve_left hfail
    split at hseek
    · obtain ⟨⟨audio, ret⟩, hseek', hseek⟩ := Option.bind_eq_some_iff.mp hseek
      rw [audioSeek_update] at hseek'
      rw [if_neg (by simp [htrick])] at hseek
      cases hseek
      dsimp only
      rw [hvid, Function.update_self]
      refine .inr ⟨fun hhas => ?_, fun hhas => ?_, _, hseek'⟩
      · rwa [if_pos hhas] at hvideo
      · rw [if_neg (by simp [hhas])] at hvideo
        cases hvideo
        rfl
    · cases hseek

/-- **When a seek that fails leaves the queues alone**. -/
theorem seek_untouched_iff (h : c.Holds as) (htrick : c.trickmode = false)
    (hseek : c.seek env droprefPts seekTimeMs = some (c', -1)) :
    c.Untouched c' as ↔ FailsInPlace env c as seekTimeMs := by
  unfold Cache.Untouched
  rcases h.seek_fails htrick hseek with ⟨hhas, hvideo, haudio⟩ | ⟨hvideo, hnone, dropref, haudio⟩
  · rw [h.queueSeek_fails (by decide) hvideo, haudio, and_iff_left (.refl _ _)]
    constructor
    · intro hs
      refine ⟨fun _ _ _ => hs, fun _ q hq => ?_, fun hq => ?_⟩
      · rw [hvideo] at hq
        cases hq
      · obtain ⟨q, hq⟩ := hq hhas
        rw [hvideo] at hq
        cases hq
    · intro hin
      exact hin.video hhas _ hvideo
  · rw [h.audioSeek_fails haudio]
    cases hhas : c.streams.has .video with
    | false =>
      rw [hnone hhas, and_iff_right (.refl _ _)]
      constructor
      · intro hs
        refine ⟨fun hyes => ?_, fun hyes => ?_, fun _ => hs⟩
        · cases hhas.symm.trans hyes
        · cases hhas.symm.trans hyes
      · intro hin
        refine hin.audio fun hyes => ?_
        cases hhas.symm.trans hyes
    | true =>
      have hvideo := hvideo hhas
      rw [h.videoSeek_stays hvideo]
      constructor
      · rintro ⟨hstill, hs⟩
        refine ⟨fun _ q hq => ?_, fun _ _ _ => hstill, fun _ => hs⟩
        rw [hvideo] at hq
        cases hq
      · intro hin
        exact ⟨hin.still hhas _ hvideo, hin.audio fun _ => ⟨_, hvideo⟩⟩

end

/-- Timestamps in milliseconds, and seeks among all packets. -/
def sameBase : SeekEnv := ⟨fun _ pts => pts, id, false⟩

/-- Two packets for audio, the first of them at 50. -/
def twoSamples : PacketQueue :=
  ((PacketQueue.init 1 8).append 4 (PacketQueue.frame 50 0)).append 5 (PacketQueue.frame 60 0)

/-- The audio begins after the video. -/
def lateAudio : Cache where
  streams := threeStreams
  queue
    | .video => PacketQueue.fourFrames
    | .audio => twoSamples
    | .sub => PacketQueue.init 2 8
  readFrames := 6
  trickmode := false

def lateAudioPackets : Stream → List Nat
  | .video => [0, 1, 2, 3]
  | .audio => [0, 1]
  | .sub => []

theorem lateAudio_holds : lateAudio.Holds lateAudioPackets where
  queue := by
    intro s
    cases s with
    | video =>
      exact ⟨⟨⟨rfl, rfl, rfl, rfl, rfl⟩, ⟨rfl, rfl, rfl, rfl, rfl⟩, by decide⟩, by decide,
        ⟨by decide, .inl (by decide)⟩, by decide, by decide, by decide, by decide⟩
    | audio =>
      exact ⟨⟨⟨rfl, rfl, rfl⟩, ⟨rfl, rfl, rfl⟩, by decide⟩, by decide,
        ⟨by decide, .inl (by decide)⟩, by decide, by decide, by decide, by decide⟩
    | sub => exact (PacketQueue.init_kept 2 0 (by decide)).inv.holds
  below := by
    intro s
    cases s <;> decide
  stamped := by
    intro s
    unfold PacketQueue.Stamped
    cases s <;> decide
  index := by
    intro s
    cases s <;> decide

/-- A seek behind the end leaves the queues alone. -/
theorem seek_lateAudio_end :
    ∃ c', lateAudio.seek sameBase (-1) 1 = some (c', -1) ∧
      lateAudio.Untouched c' lateAudioPackets := by
  have hret : (lateAudio.seek sameBase (-1) 1).map (·.2) = some (-1) := by decide
  obtain ⟨⟨c', ret⟩, hseek, rfl⟩ := Option.map_eq_some_iff.mp hret
  refine ⟨c', hseek, (seek_untouched_iff lateAudio_holds rfl hseek).2 ⟨?_, ?_, ?_⟩⟩
  · rintro - - - c ⟨⟩
    exact .inl (by decide)
  · rintro - q hq
    have hvideo : (lateAudio.queueSeek sameBase .video 1).map (·.2) = some (-1) := by decide
    rw [hq] at hvideo
    cases hvideo
  · rintro - c ⟨⟩
    exact .inl (by decide)

/-- **A seek before the first audio packet**: it fails when the video queue has been moved. -/
theorem not_seek_lateAudio :
    lateAudio.Holds lateAudioPackets ∧ lateAudio.trickmode = false ∧
      ∃ c', lateAudio.seek sameBase (-1) 0 = some (c', -1) ∧
        ¬ lateAudio.Untouched c' lateAudioPackets := by
  have hret : (lateAudio.seek sameBase (-1) 0).map (fun r => (r.2, (r.1.queue .video).curPkt)) =
      some (-1, some 0) := by decide
  obtain ⟨⟨c', ret⟩, hseek, hcur⟩ := Option.map_eq_some_iff.mp hret
  obtain ⟨rfl, hcur⟩ := Prod.mk.inj hcur
  refine ⟨lateAudio_holds, rfl, c', hseek, fun h => ?_⟩
  have hsame : (c'.queue .video).curPkt = some 1 := h.1.curPkt
  rw [hcur] at hsame
  cases hsame

end Cache

end VendorAmlogic.Player
