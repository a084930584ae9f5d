import VendorAmlogic.Lib.Run
import VendorAmlogic.Player.PacketQueue

/-!
# Seeks in the packet queue

`avpkt_cache_queue_seek_bypts`, `avpkt_cache_queue_seektoend` and
`avpkt_cache_queue_dropframes` of `amplayer/player/player_ffmpeg_cache.c`. A
seek looks for a packet, sets the cursor to it and marks the packets between
the old place and the new one, forwards or backwards. Frames are counted with
the marks, bytes are not.
-/

namespace VendorAmlogic.Player

open VendorAmlogic.Lib

namespace PacketQueue

/-! ## Marks -/

/-- `used` and the counts of frames, when it is not `v` already. -/
def setUsed (v : Bool) (q : PacketQueue) (p : Nat) : PacketQueue :=
  if q.used p = v then q
  else if v then
    { q with
      used := Function.update q.used p true
      framesForSeekForward := q.framesForSeekForward - 1
      framesForSeekBackward := q.framesForSeekBackward + 1 }
  else
    { q with
      used := Function.update q.used p false
      framesForSeekForward := q.framesForSeekForward + 1
      framesForSeekBackward := q.framesForSeekBackward - 1 }

/-- `used`, and the counts in any case. -/
def forceUsed (q : PacketQueue) (p : Nat) : PacketQueue :=
  { q with
    used := Function.update q.used p true
    framesForSeekForward := q.framesForSeekForward - 1
    framesForSeekBackward := q.framesForSeekBackward + 1 }

/-- A loop that marks from `start` on, as long as `guard` holds. -/
def markFrom (mark : PacketQueue → Nat → PacketQueue) (guard : Nat → Bool) (start : Nat)
    (q : PacketQueue) : Option (PacketQueue × Option Nat) :=
  forNext q.next (fun q p => if guard p then (mark q p, true) else (q, false)) q.brk (some start) q

/-- The cursor goes back to `goal`: what is from there up to the old place is unread again. -/
def moveBack (q : PacketQueue) (goal c : Nat) : Option PacketQueue := do
  let r ← markFrom (setUsed false) (fun p => q.frameId p ≤ q.frameId c) goal
    { q with curPkt := some goal }
  some r.1

/-- The cursor goes on to `goal`: what is before it counts as read. The result has the place
where the loop stopped. -/
def markForward (q : PacketQueue) (c goal : Nat) : Option (PacketQueue × Option Nat) :=
  markFrom (setUsed true) (fun p => q.frameId p < q.frameId goal) c { q with curPkt := some goal }

/-- The packet at the new place, when the loop stopped there, is unread. -/
def rearm (q : PacketQueue) (goal p : Nat) : PacketQueue :=
  if q.frameId p = q.frameId goal then setUsed false q p else q

def moveForward (q : PacketQueue) (c goal : Nat) : Option PacketQueue := do
  let r ← q.markForward c goal
  match r.2 with
  | some p => some (r.1.rearm goal p)
  | none => some r.1

/-! ## `avpkt_cache_queue_seek_bypts` -/

/-- The first packet along `links` for which `found` holds. -/
def findFrom (q : PacketQueue) (links : Nat → Option Nat) (found : Nat → Bool) (start : Nat) :
    Option (Option Nat) := do
  let r ← forNext links (fun _ p => ((), !found p)) q.brk (some start) ()
  some r.2

def hasPts (q : PacketQueue) (p : Nat) : Bool := q.pts p ≠ noPts

/-- The packet nearest to a cursor that has no timestamp: backwards from the last packet,
forwards from any other. -/
def nearest (q : PacketQueue) (l c : Nat) : Option (Option Nat) :=
  if q.hasPts c then some none
  else if q.frameId c = q.frameId l then q.findFrom q.priv q.hasPts c
  else q.findFrom q.next q.hasPts c

/-- The cursor is moved to a packet with a timestamp. Forwards, the place where the loop
stops is read without a check for `NULL`. -/
def normalize (q : PacketQueue) (l c : Nat) : Option PacketQueue := do
  match ← q.nearest l c with
  | none => some q
  | some g =>
    if q.frameId c = q.frameId l then q.moveBack g c
    else do
      let r ← q.markForward c g
      let p ← r.2
      some (r.1.rearm g p)

/-- `mypktl_1`, `mypktl_2` and `seek_sucess`. -/
structure Search where
  m1 : Option Nat
  m2 : Option Nat
  success : Bool

/-- One more candidate. -/
def Search.push (s : Search) (p : Nat) : Search :=
  if s.m1 = none then { s with m1 := some p, m2 := some p } else { s with m1 := s.m2, m2 := some p }

/-- The last two candidates, up to the first one with a value of at least `seekPts`. -/
def searchBody (q : PacketQueue) (l : Nat) (cand : Nat → Bool) (val : Nat → Int) (seekPts : Int)
    (s : Search) (p : Nat) : Search × Bool :=
  if q.frameId p ≤ q.frameId l then
    if cand p then
      if val p ≥ seekPts then ({ s.push p with success := true }, false)
      else (s.push p, decide (q.frameId p ≠ q.frameId l))
    else (s, decide (q.frameId p ≠ q.frameId l))
  else (s, false)

def searchFrom (q : PacketQueue) (l : Nat) (cand : Nat → Bool) (val : Nat → Int) (seekPts : Int)
    (start : Nat) (s : Search) : Option Search := do
  let r ← forNext q.next (q.searchBody l cand val seekPts) q.brk (some start) s
  some r.1

/-- The search among key frames, and then among all packets with a timestamp. -/
def searchTwice (q : PacketQueue) (f l start : Nat) (cand : Nat → Bool) (val : Nat → Int)
    (seekPts : Int) : Option Search := do
  let s ← q.searchFrom l cand val seekPts start ⟨none, none, false⟩
  if s.success then some s
  else q.searchFrom l q.hasPts q.pts seekPts f ⟨none, s.m2, false⟩

/-- `abs` takes an `int`. -/
def abs32 (x : Int) : Int := i32 (i32 x).natAbs

/-- Which of the two candidates; none of them for another `small_flag`. -/
def choose (val : Nat → Int) (m1 m2 : Nat) (seekPts smallFlag : Int) : Option Nat :=
  if val m2 = seekPts then some m2
  else if smallFlag = 1 then some m1
  else if smallFlag = 0 then some m2
  else if smallFlag = -1 then
    if abs32 (val m1 - seekPts) ≤ abs32 (val m2 - seekPts) then some m1 else some m2
  else none

/-- The packet that the seek goes to from the cursor `c`, and whether the target is not behind
the timestamp of the cursor. The conversion of the target by the timebase is left to the
caller. -/
def seekGoal (q : PacketQueue) (f l c : Nat) (seekPts smallFlag : Int) (byKey : Bool) :
    Option (Option (Bool × Nat)) := do
  let isKey (p : Nat) : Bool := !byKey || (q.pkt p).key
  if seekPts < q.headValidPts then some none
  else if seekPts ≤ q.pts c then do
    let s ← q.searchTwice f l f (fun p => q.hasPts p && isKey p) q.pts seekPts
    if s.success then do
      let m1 ← s.m1
      let m2 ← s.m2
      some (some (true, (choose q.pts m1 m2 seekPts smallFlag).getD c))
    else some none
  else if seekPts ≤ q.tailValidPts then do
    let s ← q.searchTwice f l c (fun p => (q.pkt p).pts ≠ noPts && isKey p) (fun p => (q.pkt p).pts)
      seekPts
    if s.success then do
      let m1 ← s.m1
      let m2 ← s.m2
      some (some (false, (choose q.pts m1 m2 seekPts smallFlag).getD c))
    else some none
  else some none

def seekBypts (q : PacketQueue) (seekPts smallFlag : Int) (byKey : Bool) :
    Option (PacketQueue × Int) :=
  match q.firstPkt, q.lastPkt, q.curPkt with
  | some f, some l, some c => do
    let q ← q.normalize l c
    let c ← q.curPkt
    match ← q.seekGoal f l c seekPts smallFlag byKey with
    | none => some (q, -1)
    | some (back, goal) =>
      if back ∧ q.pts goal ≤ q.pts c then do
        let q ← q.moveBack goal c
        some (q, 0)
      else do
        let q ← q.moveForward c goal
        some (q, 0)
  | _, _, _ => some (q, -1)

/-! ## `avpkt_cache_queue_seektoend` and `avpkt_cache_queue_dropframes` -/

def seektoend (q : PacketQueue) : Option (PacketQueue × Int) :=
  match q.firstPkt, q.lastPkt, q.curPkt with
  | some _, some l, some c => do
    let r ← markFrom (setUsed true) (fun p => q.frameId p ≤ q.frameId l) c q
    some ({ r.1 with curPkt := some l }, 0)
  | _, _, _ => some (q, -1)

def hasPktPts (q : PacketQueue) (p : Nat) : Bool := (q.pkt p).pts ≠ noPts

/-- The cursor passes over the packets without a pts. -/
def skipBody (q : PacketQueue) (p : Nat) : PacketQueue × Bool :=
  if (q.pkt p).pts = noPts then ({ q.forceUsed p with curPkt := q.next p }, true) else (q, false)

/-- The search for `mypktl_newcur`. -/
def dropBody (q : PacketQueue) (isAudio : Bool) (dstPts smallFlag : Int)
    (s : Search × Option Nat) (p : Nat) : (Search × Option Nat) × Bool :=
  if q.hasPktPts p && (!q.trustKeyframe || (q.pkt p).key || isAudio) then
    let s := s.1.push p
    if (q.pkt p).pts ≥ dstPts then
      ((s, s.m1.bind fun m1 => choose (fun p => (q.pkt p).pts) m1 p dstPts smallFlag), false)
    else ((s, none), true)
  else (s, true)

def dropGoal (q : PacketQueue) (isAudio : Bool) (dstPts smallFlag : Int) (start : Nat) :
    Option (Option Nat) := do
  let r ← forNext q.next (q.dropBody isAudio dstPts smallFlag) q.brk (some start)
    (⟨none, none, false⟩, none)
  some r.1.2

/-- The packet at the cursor is unread. -/
def unreadCur (q : PacketQueue) : Option PacketQueue := do
  let c ← q.curPkt
  some (if q.used c then setUsed false q c else q)

def dropframes (q : PacketQueue) (isAudio : Bool) (dstPts smallFlag : Int) :
    Option (PacketQueue × Int) :=
  match q.curPkt with
  | none => some (q, -1)
  | some c => do
    match ← q.findFrom q.next q.hasPts c with
    | none => some (q, -1)
    | some _ => do
      let r ← forNext q.next skipBody q.brk (some c) q
      let q := r.1
      let c ← q.curPkt
      match ← q.dropGoal isAudio dstPts smallFlag c with
      | some g => do
        let r ← markFrom forceUsed (fun p => q.frameId p < q.frameId g) c q
        let _ ← r.2
        let q ← unreadCur { r.1 with curPkt := some g }
        some (q, 0)
      | none => do
        let q ← q.unreadCur
        some (q, -1)

/-! ## Re-marked queues -/

/-- The counts of frames are right. -/
structure Balanced (q : PacketQueue) (as : List Nat) : Prop where
  backward : q.framesForSeekBackward = (as.filter (q.used ·)).length
  forward : q.framesForSeekForward = (as.filter (!q.used ·)).length

/-- Only marks and the counts of frames have changed, and the counts are right. -/
structure Remarked (q q' : PacketQueue) (as : List Nat) : Prop where
  same : q' = { q with
    used := q'.used
    framesForSeekBackward := q'.framesForSeekBackward
    framesForSeekForward := q'.framesForSeekForward }
  balanced : q'.Balanced as

section
variable {q q' q'' : PacketQueue} {as L : List Nat} {a c g : Nat}

theorem Remarked.refl (h : q.Balanced as) : Remarked q q as := ⟨rfl, h⟩

theorem Remarked.trans (h : Remarked q q' as) (h' : Remarked q' q'' as) : Remarked q q'' as := by
  refine ⟨?_, h'.balanced⟩
  rw [h'.same, h.same]

theorem Remarked.frameId (h : Remarked q q' as) : q'.frameId = q.frameId := by
  rw [h.same]
  rfl

theorem balanced_iff : q.Balanced as ↔
    q.framesForSeekBackward = (as.filter (q.used ·)).length ∧
      q.framesForSeekBackward + q.framesForSeekForward = as.length := by
  have h := sum_filter_not (fun _ => 1) q.used as
  rw [← length_eq_sum, ← length_eq_sum, ← length_eq_sum] at h
  constructor
  · rintro ⟨h1, h2⟩
    exact ⟨h1, by omega⟩
  · rintro ⟨h1, h2⟩
    exact ⟨h1, by omega⟩

/-- A mark that is set anew, with the counts. -/
theorem forceUsed_remarked (hnd : as.Nodup) (h : q.Balanced as) (ha : a ∈ as)
    (hu : q.used a = false) : Remarked q (q.forceUsed a) as := by
  refine ⟨rfl, balanced_iff.mpr ?_⟩
  obtain ⟨h1, h2⟩ := balanced_iff.mp h
  have hs := sum_filter_update (w := fun _ => 1) hnd ha hu
  rw [← length_eq_sum, ← length_eq_sum] at hs
  simp only [forceUsed]
  omega

theorem setUsed_remarked (hnd : as.Nodup) (h : q.Balanced as) (ha : a ∈ as) (v : Bool) :
    Remarked q (setUsed v q a) as := by
  unfold setUsed
  split
  · exact Remarked.refl h
  · rename_i hu
    cases v with
    | true => exact forceUsed_remarked hnd h ha (by simpa using hu)
    | false =>
      have hu : q.used a = true := by simpa using hu
      refine ⟨rfl, balanced_iff.mpr ?_⟩
      obtain ⟨h1, h2⟩ := balanced_iff.mp h
      -- the mark set on what has it cleared is the mark as it was
      have hs := sum_filter_update (w := fun _ => 1) (f := Function.update q.used a false) hnd ha
        (Function.update_self _ _ _)
      rw [Function.update_idem, show Function.update q.used a true = q.used by
        rw [← hu, Function.update_eq_self], ← length_eq_sum, ← length_eq_sum] at hs
      simp only [Bool.false_eq_true, if_false]
      omega

theorem setUsed_used (v : Bool) (x : Nat) :
    (setUsed v q a).used x = if x = a then v else q.used x := by
  unfold setUsed
  split
  · rename_i hu
    split
    · rename_i hx
      rw [hx, hu]
    · rfl
  · cases v <;> simp [Function.update_apply]

/-- What a marking function does to a packet whose mark is `ok`. -/
def Marks (as : List Nat) (v : Bool) (ok : Bool → Prop) (mark : PacketQueue → Nat → PacketQueue) :
    Prop :=
  ∀ q a, q.Balanced as → a ∈ as → ok (q.used a) →
    Remarked q (mark q a) as ∧ ∀ x, (mark q a).used x = if x = a then v else q.used x

theorem marks_setUsed (hnd : as.Nodup) (v : Bool) : Marks as v (fun _ => True) (setUsed v) :=
  fun _ _ hb ha _ => ⟨setUsed_remarked hnd hb ha v, setUsed_used v⟩

theorem marks_forceUsed (hnd : as.Nodup) : Marks as true (· = false) forceUsed :=
  fun _ _ hb ha hu => ⟨forceUsed_remarked hnd hb ha hu, fun _ => Function.update_apply ..⟩

/-- A marking loop over packets of which the guard takes the first ones. -/
theorem walk_mark {mark : PacketQueue → Nat → PacketQueue} {v : Bool} {ok : Bool → Prop}
    {guard : Nat → Bool} (hmark : Marks as v ok mark) (hsub : L ⊆ as) (hnd : L.Nodup)
    (hguard : L.Pairwise fun a b => guard b = true → guard a = true) (hb : q.Balanced as)
    (hok : ∀ a ∈ L, guard a = true → ok (q.used a)) {r : PacketQueue × Option Nat}
    (hr : walk (fun q p => if guard p then (mark q p, true) else (q, false)) L q = r) :
    Remarked q r.1 as ∧
      (∀ x, r.1.used x = if x ∈ L ∧ guard x = true then v else q.used x) ∧
      r.2 = L.find? (!guard ·) := by
  induction L generalizing q with
  | nil =>
    subst hr
    exact ⟨Remarked.refl hb, fun x => by simp [walk], rfl⟩
  | cons a L ih =>
    obtain ⟨haL, hnd⟩ := List.nodup_cons.mp hnd
    obtain ⟨hga, hgL⟩ := List.pairwise_cons.mp hguard
    simp only [walk] at hr
    by_cases hg : guard a = true
    · rw [if_pos hg] at hr
      simp only [if_true] at hr
      obtain ⟨hrem, hused⟩ := hmark q a hb (hsub List.mem_cons_self) (hok a List.mem_cons_self hg)
      have hok' : ∀ b ∈ L, guard b = true → ok ((mark q a).used b) := by
        intro b hbL hgb
        rw [hused, if_neg (by rintro rfl; exact haL hbL)]
        exact hok b (List.mem_cons_of_mem _ hbL) hgb
      obtain ⟨h1, h2, h3⟩ := ih (fun x hx => hsub (List.mem_cons_of_mem _ hx)) hnd hgL
        hrem.balanced hok' hr
      refine ⟨hrem.trans h1, fun x => ?_, ?_⟩
      · rw [h2, hused]
        by_cases hxa : x = a
        · subst hxa
          simp [haL, hg]
        · simp [hxa]
      · rw [h3, List.find?_cons_of_neg (by simp [hg])]
    · rw [if_neg hg] at hr
      simp only [Bool.false_eq_true, if_false] at hr
      subst hr
      refine ⟨Remarked.refl hb, fun x => ?_, ?_⟩
      · rw [if_neg]
        rintro ⟨hx, hgx⟩
        rcases List.mem_cons.mp hx with rfl | hx
        · exact hg hgx
        · exact hg (hga x hx hgx)
      · rw [List.find?_cons_of_pos (by simpa using hg)]

/-! ## Moves of the cursor -/

/-- A queue but for its cursor and its bytes. -/
structure Listed (q : PacketQueue) (as : List Nat) : Prop where
  links : DList q.next q.priv q.firstPkt q.lastPkt as
  ids : as.Pairwise fun a b => q.frameId a < q.frameId b
  balanced : q.Balanced as
  below : ∀ a ∈ as, a < q.brk

theorem Listed.length_le (h : q.Listed as) : as.length ≤ q.brk := by
  have hsub : as ⊆ List.range q.brk := fun a ha => List.mem_range.mpr (h.below a ha)
  simpa using (List.subperm_of_subset h.links.nodup hsub).length_le

/-- The packets from `a` on. -/
theorem Listed.from_mem (h : q.Listed as) (ha : a ∈ as) :
    ∃ xs ys, as = xs ++ a :: ys ∧ Chain q.next (some a) (a :: ys) ∧
      Chain q.priv (some a) (a :: xs.reverse) ∧ (a :: ys).length ≤ q.brk ∧
      (a :: xs.reverse).length ≤ q.brk ∧
      (∀ x, x ∈ a :: ys ↔ x ∈ as ∧ q.frameId a ≤ q.frameId x) ∧ (∀ x ∈ xs, q.frameId x < q.frameId a) := by
  obtain ⟨xs, ys, rfl⟩ := List.append_of_mem ha
  have hle := h.length_le
  rw [List.length_append] at hle
  obtain ⟨-, h2, h3⟩ := List.pairwise_append.mp h.ids
  have hxs : ∀ x ∈ xs, q.frameId x < q.frameId a := fun x hx => h3 x hx a List.mem_cons_self
  refine ⟨xs, ys, rfl, h.links.from_next, h.links.from_priv, by omega, ?_, ?_, hxs⟩
  · rw [List.length_cons, List.length_reverse]
    rw [List.length_cons] at hle
    omega
  · intro x
    constructor
    · intro hx
      refine ⟨List.mem_append_right _ hx, ?_⟩
      rcases List.mem_cons.mp hx with rfl | hx
      · exact Int.le_refl _
      · exact Int.le_of_lt ((List.pairwise_cons.mp h2).1 x hx)
    · rintro ⟨hx, hle⟩
      rcases List.mem_append.mp hx with hx | hx
      · have := hxs x hx
        omega
      · exact hx

/-- A marking loop from `a` on, with a guard that is closed downwards. -/
theorem Listed.markFrom {mark : PacketQueue → Nat → PacketQueue} {v : Bool} {ok : Bool → Prop}
    (h : q.Listed as) (guard : Nat → Bool) (hmark : Marks as v ok mark) (ha : a ∈ as)
    (hguard : ∀ x y, q.frameId x < q.frameId y → guard y = true → guard x = true)
    (hok : ∀ x ∈ as, q.frameId a ≤ q.frameId x → guard x = true → ok (q.used x)) :
    ∃ r, markFrom mark guard a q = some r ∧ Remarked q r.1 as ∧
      (∀ x ∈ as, r.1.used x =
        if q.frameId a ≤ q.frameId x ∧ guard x = true then v else q.used x) ∧
      (∀ g ∈ as, q.frameId a ≤ q.frameId g → guard g = false →
        (∀ x, q.frameId x < q.frameId g → guard x = true) → r.2 = some g) := by
  obtain ⟨xs, ys, has, hnext, -, hlen, -, hmem, -⟩ := h.from_mem ha
  have hids : (a :: ys).Pairwise fun x y => q.frameId x < q.frameId y := by
    have := h.ids
    rw [has] at this
    exact (List.pairwise_append.mp this).2.1
  have hsub : a :: ys ⊆ as := fun x hx => ((hmem x).mp hx).1
  have hnd : (a :: ys).Nodup := by
    have := h.links.nodup
    rw [has] at this
    exact (List.nodup_append.mp this).2.1
  obtain ⟨h1, h2, h3⟩ := walk_mark hmark hsub hnd (hids.imp (hguard _ _)) h.balanced
    (fun x hx => hok x (hsub hx) ((hmem x).mp hx).2) rfl
  refine ⟨_, hnext.forNext_eq hlen, h1, fun x hx => ?_, fun g hg hag hgg hlt => ?_⟩
  · rw [h2]
    exact if_congr (and_congr_left' ((hmem x).trans (and_iff_right hx))) rfl rfl
  · rw [h3]
    obtain ⟨us, ws, huw⟩ := List.append_of_mem ((hmem g).mpr ⟨hg, hag⟩)
    rw [huw] at hids ⊢
    rw [List.find?_append, List.find?_eq_none.mpr, List.find?_cons_of_pos (by simp [hgg])]
    · rfl
    · intro x hx
      simp [hlt x ((List.pairwise_append.mp hids).2.2 x hx g List.mem_cons_self)]

theorem Listed.frameId_inj (h : q.Listed as) {x y : Nat} (hx : x ∈ as) (hy : y ∈ as)
    (he : q.frameId x = q.frameId y) : x = y := by
  obtain ⟨xs, ys, rfl⟩ := List.append_of_mem hx
  obtain ⟨-, h2, h3⟩ := List.pairwise_append.mp h.ids
  rcases List.mem_append.mp hy with hy | hy
  · have := h3 y hy x List.mem_cons_self
    omega
  · rcases List.mem_cons.mp hy with hy | hy
    · exact hy.symm
    · have := (List.pairwise_cons.mp h2).1 y hy
      omega

/-- The cursor of `q'` is `g`, what is before it has been read and the rest has not. -/
structure MovedTo (q q' : PacketQueue) (as : List Nat) (g : Nat) : Prop where
  same : q' = { q with
    used := q'.used
    framesForSeekBackward := q'.framesForSeekBackward
    framesForSeekForward := q'.framesForSeekForward
    curPkt := some g }
  mem : g ∈ as
  flags : ∀ x ∈ as, q'.used x = true ↔ q.frameId x < q.frameId g
  balanced : q'.Balanced as

/-- The old place of the cursor. -/
def AtCursor (q : PacketQueue) (as : List Nat) (c : Nat) : Prop :=
  c ∈ as ∧
    ((∀ a ∈ as, q.used a = true ↔ q.frameId a < q.frameId c) ∨
      ((∀ a ∈ as, q.used a = true) ∧ q.lastPkt = some c))

theorem Listed.moveTo (h : q.Listed as) : ({ q with curPkt := some g } : PacketQueue).Listed as :=
  ⟨h.links, h.ids, ⟨h.balanced.backward, h.balanced.forward⟩, h.below⟩

/-- The last packet has the greatest frame id. -/
theorem Listed.le_last (h : q.Listed as) (hl : q.lastPkt = some c) {x : Nat} (hx : x ∈ as) :
    q.frameId x ≤ q.frameId c := by
  have hlast := h.links.last_eq
  rw [hl] at hlast
  obtain ⟨bs, rfl⟩ := List.getLast?_eq_some_iff.mp hlast.symm
  rcases List.mem_append.mp hx with hx | hx
  · exact Int.le_of_lt ((List.pairwise_append.mp h.ids).2.2 x hx c List.mem_cons_self)
  · obtain rfl := List.mem_singleton.mp hx
    exact Int.le_refl _

/-- The first packet has the least frame id. -/
theorem Listed.first_le (h : q.Listed as) (hf : q.firstPkt = some c) {x : Nat} (hx : x ∈ as) :
    q.frameId c ≤ q.frameId x := by
  have hfirst := h.links.first_eq
  rw [hf] at hfirst
  obtain ⟨bs, rfl⟩ := List.head?_eq_some_iff.mp hfirst.symm
  rcases List.mem_cons.mp hx with rfl | hx
  · exact Int.le_refl _
  · exact Int.le_of_lt ((List.pairwise_cons.mp h.ids).1 x hx)

theorem Listed.moveBack (h : q.Listed as) (hc : q.AtCursor as c) (hg : g ∈ as)
    (hle : q.frameId g ≤ q.frameId c) : ∃ q', q.moveBack g c = some q' ∧ MovedTo q q' as g := by
  obtain ⟨r, hr, hrem, hused, -⟩ := (h.moveTo (g := g)).markFrom
    (fun p => q.frameId p ≤ q.frameId c) (marks_setUsed h.links.nodup false) hg
    (by intro x y hxy hy
        have hy := of_decide_eq_true hy
        apply decide_eq_true
        change q.frameId x < q.frameId y at hxy
        omega)
    (fun _ _ _ _ => trivial)
  refine ⟨r.1, ?_, ?_, hg, fun x hx => ?_, hrem.balanced⟩
  · unfold PacketQueue.moveBack
    rw [hr]
    rfl
  · exact hrem.same
  · rw [hused x hx]
    change (if q.frameId g ≤ q.frameId x ∧ decide (q.frameId x ≤ q.frameId c) = true then false
      else q.used x) = true ↔ _
    split
    · rename_i hx'
      exact iff_of_false (by simp) (by omega)
    · rename_i hx'
      rcases hc.2 with h1 | ⟨h1, h2⟩
      · rw [h1 x hx]
        simp only [decide_eq_true_eq] at hx'
        omega
      · have := h.le_last h2 hx
        simp only [decide_eq_true_eq] at hx'
        exact iff_of_true (h1 x hx) (by omega)

/-- The loop forwards stops at the new place, where the packet is unread. -/
theorem Listed.markForward (h : q.Listed as) (hc : q.AtCursor as c) (hg : g ∈ as)
    (hle : q.frameId c ≤ q.frameId g) :
    ∃ q', q.markForward c g = some (q', some g) ∧ MovedTo q (q'.rearm g g) as g := by
  obtain ⟨⟨q', stop⟩, hr, hrem, hused, hstop⟩ := (h.moveTo (g := g)).markFrom
    (fun p => q.frameId p < q.frameId g) (marks_setUsed h.links.nodup true) hc.1
    (by intro x y hxy hy
        have hy := of_decide_eq_true hy
        apply decide_eq_true
        change q.frameId x < q.frameId y at hxy
        omega)
    (fun _ _ _ _ => trivial)
  have hsg : stop = some g := hstop g hg hle (by simp) fun x hx => decide_eq_true hx
  rw [hsg] at hr
  have hrem' := setUsed_remarked h.links.nodup hrem.balanced hg false
  have hrearm : q'.rearm g g = setUsed false q' g := if_pos rfl
  refine ⟨q', hr, ?_, hg, fun x hx => ?_, ?_⟩
  · rw [hrearm]
    exact (hrem.trans hrem').same
  · rw [hrearm, setUsed_used]
    split
    · rename_i hxg
      rw [hxg]
      exact iff_of_false (by simp) (Int.lt_irrefl _)
    · rename_i hxg
      have hne : q.frameId x ≠ q.frameId g := fun he => hxg (h.frameId_inj hx hg he)
      rw [hused x hx]
      change (if q.frameId c ≤ q.frameId x ∧ decide (q.frameId x < q.frameId g) = true then true
        else q.used x) = true ↔ _
      split
      · rename_i hx'
        exact iff_of_true rfl (of_decide_eq_true hx'.2)
      · rename_i hx'
        simp only [decide_eq_true_eq] at hx'
        rcases hc.2 with h1 | ⟨h1, h2⟩
        · rw [h1 x hx]
          omega
        · have := h.le_last h2 hx
          have := h.le_last h2 hg
          exact iff_of_true (h1 x hx) (by omega)
  · rw [hrearm]
    exact hrem'.balanced

theorem Listed.moveForward (h : q.Listed as) (hc : q.AtCursor as c) (hg : g ∈ as)
    (hle : q.frameId c ≤ q.frameId g) : ∃ q', q.moveForward c g = some q' ∧ MovedTo q q' as g := by
  obtain ⟨q', hq, hm⟩ := h.markForward hc hg hle
  refine ⟨_, ?_, hm⟩
  unfold PacketQueue.moveForward
  rw [hq]
  rfl

theorem MovedTo.listed (hm : MovedTo q q' as g) (h : q.Listed as) :
    q'.Listed as ∧ q'.AtCursor as g ∧ q'.curPkt = some g := by
  have hb := hm.balanced
  have hf := hm.flags
  have hs := hm.same
  refine ⟨⟨?_, ?_, hb, ?_⟩, ⟨hm.mem, .inl fun x hx => ?_⟩, ?_⟩
  · rw [hs]
    exact h.links
  · rw [hs]
    exact h.ids
  · rw [hs]
    exact h.below
  · rw [hf x hx]
    rw [hs]
    rfl
  · rw [hs]

/-- A move from a queue in which the cursor had been moved already. -/
theorem MovedTo.after (hm : MovedTo q' q'' as g)
    (hsame : q' = { q with
      used := q'.used
      framesForSeekBackward := q'.framesForSeekBackward
      framesForSeekForward := q'.framesForSeekForward
      curPkt := some c }) : MovedTo q q'' as g := by
  have hs : q'.frameId = q.frameId := by
    rw [hsame]
    rfl
  refine ⟨?_, hm.mem, fun x hx => ?_, hm.balanced⟩
  · rw [hm.same, hsame]
  · rw [hm.flags x hx, hs]

/-- The bytes of the packets before `g`. -/
def bytesBefore (q : PacketQueue) (g : Nat) : Int :=
  q.bytesOf ((nodesFrom q.next q.brk q.firstPkt).filter fun a => q.frameId a < q.frameId g)

theorem Listed.nodes (h : q.Listed as) : nodesFrom q.next q.brk q.firstPkt = as :=
  h.links.fwd.nodesFrom_eq h.length_le

theorem Holds.listed (h : q.Holds as) (hb : ∀ a ∈ as, a < q.brk) : q.Listed as :=
  ⟨h.links, h.ids, ⟨h.backward, h.forward⟩, hb⟩

/-- A queue stays one when the bytes of what has been read are as before. -/
theorem Kept.remark {rf : Int} (h : q.Kept rf as)
    (hsame : q' = { q with
      used := q'.used
      framesForSeekBackward := q'.framesForSeekBackward
      framesForSeekForward := q'.framesForSeekForward
      curPkt := some g })
    (hb : q'.Balanced as) (hc : q'.AtCursor as g)
    (hbytes : q.backwardsize = q.bytesOf (as.filter (q'.used ·))) : q'.Kept rf as := by
  have hcur : q'.curPkt = some g := by rw [hsame]
  have hsizes : q'.backwardsize = q.backwardsize ∧ q'.forwardsize = q.forwardsize := by
    rw [hsame]
    exact ⟨rfl, rfl⟩
  have hbytes' : ∀ l, q'.bytesOf l = q.bytesOf l := fun l => by
    rw [hsame]
    rfl
  refine ⟨⟨holds_of_totals ?_ ?_ ?_ hb.backward (balanced_iff.mp hb).2 ?_ ?_, ?_, ?_⟩, ?_, ?_⟩
  · rw [hsame]
    exact h.inv.holds.links
  · rw [hsame]
    exact h.inv.holds.ids
  · unfold Cursor
    rw [hcur]
    exact hc
  · rw [hsizes.1, hbytes']
    exact hbytes
  · rw [hsizes.1, hsizes.2, hbytes']
    exact h.inv.holds.totalBytes
  · rw [hsame]
    exact h.inv.below
  · rw [hsame]
    exact h.inv.read
  · rw [hsame]
    exact h.count
  · rw [hsame]
    exact h.room

/-- **Where a move of the cursor keeps a queue**: when it passes over no bytes. -/
theorem MovedTo.kept {rf : Int} (hm : MovedTo q q' as g) (h : q.Kept rf as)
    (hbytes : q.bytesBefore g = q.backwardsize) : q'.Kept rf as := by
  have hl := h.inv.holds.listed h.inv.below
  refine h.remark hm.same hm.balanced (hm.listed hl).2.1 ?_
  have hfilter : as.filter (q'.used ·) = as.filter fun a => q.frameId a < q.frameId g := by
    apply List.filter_congr
    intro x hx
    rw [Bool.eq_iff_iff, hm.flags x hx, decide_eq_true_eq]
  rw [hfilter, ← hbytes]
  unfold bytesBefore
  rw [hl.nodes]

/-! ## Searches -/

theorem walk_find (found : Nat → Bool) (L : List Nat) :
    walk (fun (_ : Unit) p => ((), !found p)) L () = ((), L.find? found) := by
  induction L with
  | nil => rfl
  | cons a L ih =>
    simp only [walk]
    cases h : found a with
    | true => rw [List.find?_cons_of_pos h]; rfl
    | false => rw [List.find?_cons_of_neg (by simp [h])]; exact ih

theorem findFrom_eq {links : Nat → Option Nat} (found : Nat → Bool) (hchain : Chain links (some a) L)
    (hlen : L.length ≤ q.brk) : q.findFrom links found a = some (L.find? found) := by
  unfold findFrom
  rw [hchain.forNext_eq hlen, walk_find]
  rfl

/-- The nearest packet with a timestamp is on the side that was searched. -/
theorem Listed.nearest (h : q.Listed as) {l : Nat} (hc : c ∈ as) :
    ∃ o, q.nearest l c = some o ∧ ∀ g, o = some g →
      g ∈ as ∧ if q.frameId c = q.frameId l then q.frameId g ≤ q.frameId c
        else q.frameId c ≤ q.frameId g := by
  obtain ⟨xs, ys, has, hnext, hpriv, hlen, hlen', hmem, hlt⟩ := h.from_mem hc
  unfold PacketQueue.nearest
  split
  · exact ⟨none, rfl, fun g hg => by cases hg⟩
  · split
    · refine ⟨_, findFrom_eq _ hpriv hlen', fun g hg => ?_⟩
      rcases List.mem_cons.mp (List.mem_of_find?_eq_some hg) with rfl | hg
      · exact ⟨hc, Int.le_refl _⟩
      · have hg := List.mem_reverse.mp hg
        refine ⟨?_, Int.le_of_lt (hlt g hg)⟩
        rw [has]
        exact List.mem_append_left _ hg
    · refine ⟨_, findFrom_eq _ hnext hlen, fun g hg => ?_⟩
      exact (hmem g).mp (List.mem_of_find?_eq_some hg)

/-- The cursor at a packet with a timestamp. -/
theorem Listed.normalize (h : q.Listed as) {l : Nat} (hc : q.AtCursor as c) :
    ∃ o, q.nearest l c = some o ∧ (o = none → q.normalize l c = some q) ∧
      ∀ g, o = some g → ∃ q', q.normalize l c = some q' ∧ MovedTo q q' as g := by
  obtain ⟨o, ho, hg⟩ := h.nearest (l := l) hc.1
  refine ⟨o, ho, fun hn => ?_, fun g hog => ?_⟩
  · unfold PacketQueue.normalize
    rw [ho, hn]
    rfl
  · obtain ⟨hmem, hside⟩ := hg g hog
    unfold PacketQueue.normalize
    rw [ho, hog]
    simp only [Option.bind_eq_bind, Option.bind_some]
    split
    · rename_i heq
      rw [if_pos heq] at hside
      exact h.moveBack hc hmem hside
    · rename_i hne
      rw [if_neg hne] at hside
      obtain ⟨q', hq, hm⟩ := h.markForward hc hmem hside
      refine ⟨_, ?_, hm⟩
      rw [hq]
      rfl

/-- A search passes over a packet that is no candidate at or after the target, up to the end of
the list. -/
theorem walk_searchBody {l : Nat} {cand : Nat → Bool} {val : Nat → Int} {target : Int} {s : Search}
    (hl : (a :: L).getLast? = some l)
    (hids : (a :: L).Pairwise fun x y => q.frameId x < q.frameId y) :
    (walk (q.searchBody l cand val target) (a :: L) s).1 =
      if cand a = true ∧ target ≤ val a then { s.push a with success := true }
      else (walk (q.searchBody l cand val target) L (if cand a = true then s.push a else s)).1 := by
  have hlater := (List.pairwise_cons.mp hids).1
  have hle : q.frameId a ≤ q.frameId l := by
    rcases List.mem_cons.mp (List.mem_of_getLast? hl) with rfl | hmem
    · exact Int.le_refl _
    · exact (hlater l hmem).le
  -- the test for the last packet only saves the end of the loop
  have hgo (s' : Search) : (if decide (q.frameId a ≠ q.frameId l) then
      (walk (q.searchBody l cand val target) L s').1 else s') =
        (walk (q.searchBody l cand val target) L s').1 := by
    cases L with
    | nil => exact ite_self _
    | cons b L =>
      have hmem : l ∈ b :: L := List.mem_of_getLast? (by rwa [List.getLast?_cons_cons] at hl)
      rw [if_pos (decide_eq_true (hlater l hmem).ne)]
  simp only [walk, searchBody, if_pos hle]
  by_cases hcand : cand a = true
  · by_cases hval : target ≤ val a
    · simp only [hcand, hval, and_self, if_true]
      rfl
    · simp only [hcand, hval, and_false, if_true, if_false]
      simpa only [apply_ite Prod.fst] using hgo (s.push a)
  · have hno : ¬ (cand a = true ∧ target ≤ val a) := fun h => hcand h.1
    simp only [if_neg hcand, if_neg hno]
    simpa only [apply_ite Prod.fst] using hgo s

/-- What the candidates of a search are: packets that satisfy `P`. -/
structure SearchOk (P : Nat → Prop) (s : Search) : Prop where
  m1 : ∀ m, s.m1 = some m → P m
  m2 : ∀ m, s.m2 = some m → P m
  both : s.m1 ≠ none → s.m2 ≠ none
  found : s.success = true → s.m1 ≠ none

/-- The start of a search. -/
theorem searchOk_start {P : Nat → Prop} {m2 : Option Nat} (h : ∀ m, m2 = some m → P m) :
    SearchOk P ⟨none, m2, false⟩ := by
  refine ⟨?_, h, ?_, ?_⟩ <;> simp

theorem SearchOk.push {P : Nat → Prop} {s : Search} (h : SearchOk P s) (ha : P a) :
    SearchOk P (s.push a) ∧ (s.push a).m1 ≠ none ∧ (s.push a).m2 = some a := by
  have hself : ∀ m, some a = some m → P m := by
    intro m hm
    cases hm
    exact ha
  unfold Search.push
  split
  · refine ⟨⟨hself, hself, ?_, ?_⟩, ?_, rfl⟩ <;> simp
  · rename_i hm1
    refine ⟨⟨h.m2, hself, ?_, fun _ => h.both hm1⟩, h.both hm1, rfl⟩
    simp

theorem searchBody_ok {P : Nat → Prop} {l : Nat} {cand : Nat → Bool} {val : Nat → Int}
    {seekPts : Int} {s : Search} (h : SearchOk P s) (ha : P a) :
    SearchOk P (q.searchBody l cand val seekPts s a).1 := by
  obtain ⟨hp, hp1, -⟩ := h.push ha
  unfold searchBody
  split
  · split
    · split
      · exact ⟨hp.m1, hp.m2, hp.both, fun _ => hp1⟩
      · exact hp
    · exact h
  · exact h

theorem Listed.searchFrom {s : Search} (h : q.Listed as) (l : Nat) (cand : Nat → Bool)
    (val : Nat → Int) (seekPts : Int) (hs : SearchOk (· ∈ as) s) (ha : a ∈ as) :
    ∃ s', q.searchFrom l cand val seekPts a s = some s' ∧ SearchOk (· ∈ as) s' := by
  obtain ⟨xs, ys, has, hnext, -, hlen, -, hmem, -⟩ := h.from_mem ha
  have hwalk : SearchOk (· ∈ as) (walk (q.searchBody l cand val seekPts) (a :: ys) s).1 :=
    walk_inv (fun s b hb h => searchBody_ok h ((hmem b).mp hb).1) hs
  refine ⟨_, ?_, hwalk⟩
  unfold PacketQueue.searchFrom
  rw [hnext.forNext_eq hlen]
  rfl

theorem Listed.searchTwice {f : Nat} (h : q.Listed as) (l : Nat) (cand : Nat → Bool)
    (val : Nat → Int) (seekPts : Int) (hf : f ∈ as) (ha : a ∈ as) :
    ∃ s, q.searchTwice f l a cand val seekPts = some s ∧ SearchOk (· ∈ as) s := by
  obtain ⟨s, hs, hok⟩ := h.searchFrom l cand val seekPts
    (searchOk_start fun m hm => absurd hm (Option.some_ne_none m).symm) ha
  unfold PacketQueue.searchTwice
  rw [hs, Option.bind_eq_bind, Option.bind_some]
  split
  · exact ⟨s, rfl, hok⟩
  · exact h.searchFrom _ _ _ _ (searchOk_start hok.m2) hf

theorem choose_mem {P : Nat → Prop} {m1 m2 : Nat} (val : Nat → Int) (seekPts smallFlag : Int)
    (h1 : P m1) (h2 : P m2) (hc : P c) : P ((choose val m1 m2 seekPts smallFlag).getD c) := by
  unfold choose
  repeat' split
  all_goals assumption

/-- Where a seek goes is in the queue. -/
theorem Listed.seekGoal {f : Nat} (h : q.Listed as) (l : Nat) (seekPts smallFlag : Int)
    (byKey : Bool) (hf : f ∈ as) (hc : c ∈ as) :
    ∃ o, q.seekGoal f l c seekPts smallFlag byKey = some o ∧
      ∀ back g, o = some (back, g) → g ∈ as := by
  have hpick : ∀ (back : Bool) (s : Search), SearchOk (· ∈ as) s →
      ∃ o, (if s.success then do
          let m1 ← s.m1
          let m2 ← s.m2
          some (some (back, (choose q.pts m1 m2 seekPts smallFlag).getD c))
        else some none) = some o ∧ ∀ back g, o = some (back, g) → g ∈ as := by
    intro back s hs
    split
    · rename_i hfound
      obtain ⟨m1, hm1⟩ := Option.ne_none_iff_exists'.mp (hs.found hfound)
      obtain ⟨m2, hm2⟩ := Option.ne_none_iff_exists'.mp (hs.both (hs.found hfound))
      rw [hm1, hm2]
      refine ⟨_, rfl, fun b g hg => ?_⟩
      cases hg
      exact choose_mem (P := (· ∈ as)) _ _ _ (hs.m1 m1 hm1) (hs.m2 m2 hm2) hc
    · exact ⟨none, rfl, fun b g hg => by cases hg⟩
  have hnone : ∃ o : Option (Bool × Nat), some none = some o ∧
      ∀ back g, o = some (back, g) → g ∈ as := ⟨none, rfl, fun b g hg => by cases hg⟩
  unfold PacketQueue.seekGoal
  dsimp only
  split
  · exact hnone
  · split
    · obtain ⟨s, hs, hok⟩ := h.searchTwice l
        (fun p => q.hasPts p && (!byKey || (q.pkt p).key)) q.pts seekPts hf hf
      rw [hs]
      exact hpick true s hok
    · split
      · obtain ⟨s, hs, hok⟩ := h.searchTwice l
          (fun p => (q.pkt p).pts ≠ noPts && (!byKey || (q.pkt p).key)) (fun p => (q.pkt p).pts)
          seekPts hf hc
        rw [hs]
        exact hpick false s hok
      · exact hnone

/-! ## Seeks that keep the queue -/

/-- A search does not look at marks, nor at the cursor. -/
theorem MovedTo.seekGoal (hm : MovedTo q q' as c) (f l : Nat) (seekPts smallFlag : Int)
    (byKey : Bool) :
    q'.seekGoal f l c seekPts smallFlag byKey = q.seekGoal f l c seekPts smallFlag byKey := by
  rw [hm.same]
  rfl

/-- Whether a seek goes from the cursor `c` to a packet `g` on the side that its timestamp
tells, with no bytes between them. -/
def GoalOk (q : PacketQueue) (c : Nat) (back : Bool) (g : Nat) : Prop :=
  q.bytesBefore g = q.backwardsize ∧
    if back ∧ q.pts g ≤ q.pts c then q.frameId g ≤ q.frameId c else q.frameId c ≤ q.frameId g

/-- The places a seek moves the cursor to: first the nearest packet with a timestamp, and then
what the search finds from there. -/
def SeekOk (q : PacketQueue) (seekPts smallFlag : Int) (byKey : Bool) : Prop :=
  ∀ f l c o, q.firstPkt = some f → q.lastPkt = some l → q.curPkt = some c →
    q.nearest l c = some o →
    match q.seekGoal f l (o.getD c) seekPts smallFlag byKey with
    | some (some (back, g)) => q.GoalOk (o.getD c) back g
    | _ => ∀ g, o = some g → q.bytesBefore g = q.backwardsize

/-- The second move of a seek, from a cursor at a packet with a timestamp. -/
theorem Listed.seekMove (h : q.Listed as) (hc : q.AtCursor as c) {back : Bool} (hg : g ∈ as)
    (hside : if back ∧ q.pts g ≤ q.pts c then q.frameId g ≤ q.frameId c
      else q.frameId c ≤ q.frameId g) :
    ∃ q', (if back ∧ q.pts g ≤ q.pts c then do
        let q ← q.moveBack g c
        some (q, (0 : Int))
      else do
        let q ← q.moveForward c g
        some (q, 0)) = some (q', 0) ∧ MovedTo q q' as g := by
  split
  · rename_i hb
    rw [if_pos hb] at hside
    obtain ⟨q', hq, hm⟩ := h.moveBack hc hg hside
    refine ⟨q', ?_, hm⟩
    rw [hq]
    rfl
  · rename_i hb
    rw [if_neg hb] at hside
    obtain ⟨q', hq, hm⟩ := h.moveForward hc hg hside
    refine ⟨q', ?_, hm⟩
    rw [hq]
    rfl

/-- The cursor after the first move of a seek. -/
theorem Listed.normalize_cur (h : q.Listed as) {l : Nat} (hc : q.AtCursor as c)
    (hcur : q.curPkt = some c) :
    ∃ o q1, q.nearest l c = some o ∧ q.normalize l c = some q1 ∧ q1.curPkt = some (o.getD c) ∧
      q1.AtCursor as (o.getD c) ∧ q1.Listed as ∧
      (q1 = q ∨ (∃ g, o = some g) ∧ MovedTo q q1 as (o.getD c)) := by
  obtain ⟨o, ho, hnone, hsome⟩ := h.normalize (l := l) hc
  cases o with
  | none => exact ⟨none, q, ho, hnone rfl, hcur, hc, h, .inl rfl⟩
  | some g =>
    obtain ⟨q1, hq1, hm⟩ := hsome g rfl
    obtain ⟨hl1, hc1, hcur1⟩ := hm.listed h
    exact ⟨some g, q1, ho, hq1, hcur1, hc1, hl1, .inr ⟨⟨g, rfl⟩, hm⟩⟩

theorem Kept.seekBypts {rf seekPts smallFlag : Int} {byKey : Bool} (h : q.Kept rf as)
    (hs : q.SeekOk seekPts smallFlag byKey) :
    ∃ q' r, q.seekBypts seekPts smallFlag byKey = some (q', r) ∧ q'.Kept rf as := by
  have hl := h.inv.holds.listed h.inv.below
  cases hf : q.firstPkt with
  | none => exact ⟨q, -1, by unfold PacketQueue.seekBypts; rw [hf], h⟩
  | some f =>
  cases hlast : q.lastPkt with
  | none => exact ⟨q, -1, by unfold PacketQueue.seekBypts; rw [hf, hlast], h⟩
  | some l =>
  cases hcur : q.curPkt with
  | none => exact ⟨q, -1, by unfold PacketQueue.seekBypts; rw [hf, hlast, hcur], h⟩
  | some c =>
  have hfm : f ∈ as := List.mem_of_head? (hf.symm.trans hl.links.first_eq).symm
  obtain ⟨o, q1, ho, hq1, hcur1, hc1, hl1, hmoved⟩ :=
    hl.normalize_cur (l := l) (h.inv.holds.cur_mem hcur) hcur
  have hs := hs f l c o hf hlast hcur ho
  obtain ⟨goal, hgoal, hmem⟩ := hl1.seekGoal l seekPts smallFlag byKey hfm hc1.1
  have hsame : q.seekGoal f l (o.getD c) seekPts smallFlag byKey = some goal ∧
      q1.pts = q.pts ∧ q1.frameId = q.frameId := by
    rcases hmoved with rfl | ⟨-, hm⟩
    · exact ⟨hgoal, rfl, rfl⟩
    · rw [← hm.seekGoal, hgoal, hm.same]
      exact ⟨rfl, rfl, rfl⟩
  unfold PacketQueue.seekBypts
  rw [hf, hlast, hcur]
  simp only [hq1, hcur1, hgoal, Option.bind_eq_bind, Option.bind_some]
  rw [hsame.1] at hs
  cases goal with
  | none =>
    refine ⟨q1, -1, rfl, ?_⟩
    rcases hmoved with rfl | ⟨⟨g, rfl⟩, hm⟩
    · exact h
    · exact hm.kept h (hs g rfl)
  | some goal =>
    obtain ⟨back, g⟩ := goal
    obtain ⟨hbytes, hside⟩ := hs
    rw [← hsame.2.1, ← hsame.2.2] at hside
    obtain ⟨q', hq', hm'⟩ := hl1.seekMove hc1 (hmem back g rfl) hside
    refine ⟨q', 0, hq', ?_⟩
    rcases hmoved with rfl | ⟨-, hm⟩
    · exact hm'.kept h hbytes
    · exact (hm'.after hm.same).kept h hbytes

theorem Kept.seektoend {rf : Int} (h : q.Kept rf as) (hbytes : q.forwardsize = 0) :
    ∃ q' r, q.seektoend = some (q', r) ∧ q'.Kept rf as := by
  have hl := h.inv.holds.listed h.inv.below
  cases hf : q.firstPkt with
  | none => exact ⟨q, -1, by unfold PacketQueue.seektoend; rw [hf], h⟩
  | some f =>
  cases hlast : q.lastPkt with
  | none => exact ⟨q, -1, by unfold PacketQueue.seektoend; rw [hf, hlast], h⟩
  | some l =>
  cases hcur : q.curPkt with
  | none => exact ⟨q, -1, by unfold PacketQueue.seektoend; rw [hf, hlast, hcur], h⟩
  | some c =>
  obtain ⟨hc, hcase⟩ := h.inv.holds.cur_mem hcur
  obtain ⟨⟨q', stop⟩, hr, hrem, hused, -⟩ := hl.markFrom
    (fun p => q.frameId p ≤ q.frameId l) (marks_setUsed hl.links.nodup true) hc
    (by intro x y hxy hy
        have hy := of_decide_eq_true hy
        apply decide_eq_true
        omega)
    (fun _ _ _ _ => trivial)
  dsimp only at hrem hused
  have hall : ∀ x ∈ as, q'.used x = true := by
    intro x hx
    rw [hused x hx]
    split
    · rfl
    · rename_i hx'
      have hxl : decide (q.frameId x ≤ q.frameId l) = true := decide_eq_true (hl.le_last hlast hx)
      rcases hcase with h1 | h1
      · apply (h1 x hx).mpr
        by_contra hxc
        exact hx' ⟨Int.not_lt.mp hxc, hxl⟩
      · exact h1.1 x hx
  refine ⟨{ q' with curPkt := some l }, 0, ?_, ?_⟩
  · unfold PacketQueue.seektoend
    rw [hf, hlast, hcur]
    simp only [hr, Option.bind_eq_bind, Option.bind_some]
  · have hlm : l ∈ as := List.mem_of_getLast? (hlast.symm.trans hl.links.last_eq).symm
    have hlast' : q'.lastPkt = some l := by
      rw [hrem.same]
      exact hlast
    refine h.remark (g := l) ?_ ⟨hrem.balanced.backward, hrem.balanced.forward⟩
      ⟨hlm, .inr ⟨hall, hlast'⟩⟩ ?_
    · rw [hrem.same]
    · dsimp only
      rw [List.filter_eq_self.mpr (by simpa using hall)]
      have := h.inv.holds.totalBytes
      omega

/-! ## `dropframes` -/

/-- The loop over packets without a pts: all of them count as read, and the cursor is at the
packet behind them. -/
theorem walk_skip {us : List Nat} (ws : List Nat) (hnd : as.Nodup) (hsub : us ⊆ as) (hus : us.Nodup)
    (hb : q.Balanced as) (hunread : ∀ a ∈ us, q.used a = false)
    (hnone : ∀ a ∈ us, (q.pkt a).pts = noPts) (hg : (q.pkt g).pts ≠ noPts)
    (hcur : q.curPkt = (us ++ [g]).head?)
    (hchain : Chain q.next (us ++ [g]).head? (us ++ g :: ws)) :
    ∃ q', walk skipBody (us ++ g :: ws) q = (q', some g) ∧
      q' = { q with
        used := q'.used
        framesForSeekBackward := q'.framesForSeekBackward
        framesForSeekForward := q'.framesForSeekForward
        curPkt := some g } ∧
      (∀ x, q'.used x = if x ∈ us then true else q.used x) ∧ q'.Balanced as := by
  induction us generalizing q with
  | nil =>
    refine ⟨q, ?_, ?_, fun x => by simp, hb⟩
    · simp only [List.nil_append, walk, skipBody, if_neg hg, Bool.false_eq_true, if_false]
    · rw [← show q.curPkt = some g from hcur]
  | cons a us ih =>
    obtain ⟨ha, hus⟩ := List.nodup_cons.mp hus
    have hnext : q.next a = (us ++ [g]).head? := by
      have := hchain.2.head
      rw [this]
      cases us <;> rfl
    have hstep : skipBody q a = ({ q.forceUsed a with curPkt := q.next a }, true) :=
      if_pos (hnone a List.mem_cons_self)
    have hrem := forceUsed_remarked hnd hb (hsub List.mem_cons_self)
      (hunread a List.mem_cons_self)
    obtain ⟨q', hw, hsame, hused, hb'⟩ := ih (q := { q.forceUsed a with curPkt := q.next a })
      (fun x hx => hsub (List.mem_cons_of_mem _ hx)) hus
      ⟨hrem.balanced.backward, hrem.balanced.forward⟩
      (by intro x hx
          change Function.update q.used a true x = false
          rw [Function.update_of_ne (by rintro rfl; exact ha hx)]
          exact hunread x (List.mem_cons_of_mem _ hx))
      (fun x hx => hnone x (List.mem_cons_of_mem _ hx)) hg hnext (by
        change Chain q.next _ _
        rw [← hnext]
        exact hchain.2)
    refine ⟨q', ?_, hsame, fun x => ?_, hb'⟩
    · simp only [List.cons_append, walk, hstep, if_true]
      exact hw
    · rw [hused]
      change (if x ∈ us then true else Function.update q.used a true x) = _
      by_cases hxa : x = a
      · subst hxa
        simp
      · simp [hxa]

/-- The cursor after the packets without a pts. -/
theorem Listed.skip (h : q.Listed as) (hc : q.AtCursor as c) (hcur : q.curPkt = some c)
    (hfind : q.findFrom q.next q.hasPktPts c = some (some g)) :
    ∃ q', forNext q.next skipBody q.brk (some c) q = some (q', some g) ∧
      q' = { q with
        used := q'.used
        framesForSeekBackward := q'.framesForSeekBackward
        framesForSeekForward := q'.framesForSeekForward
        curPkt := some g } ∧
      q'.Listed as ∧ q'.AtCursor as g := by
  obtain ⟨xs, ys, has, hnext, -, hlen, -, hmem, -⟩ := h.from_mem hc.1
  rw [findFrom_eq _ hnext hlen, Option.some_inj] at hfind
  obtain ⟨hg, us, ws, huw, hus⟩ := List.find?_eq_some_iff_append.mp hfind
  have hhead : (us ++ [g]).head? = some c := by
    have := congrArg List.head? huw
    rw [List.head?_cons] at this
    rw [this]
    cases us <;> rfl
  have hnd : (us ++ g :: ws).Nodup := by
    have := h.links.nodup
    rw [has, huw] at this
    exact (List.nodup_append.mp this).2.1
  have hids : (us ++ g :: ws).Pairwise fun a b => q.frameId a < q.frameId b := by
    have := h.ids
    rw [has, huw] at this
    exact (List.pairwise_append.mp this).2.1
  rw [huw] at hnext hlen hmem
  have hgm := (hmem g).mp (List.mem_append_right _ List.mem_cons_self)
  have hbefore : ∀ x ∈ us, q.frameId x < q.frameId g := fun x hx =>
    (List.pairwise_append.mp hids).2.2 x hx g List.mem_cons_self
  have hbehind : ∀ x ∈ as, x ∉ us → q.frameId c ≤ q.frameId x → q.frameId g ≤ q.frameId x := by
    intro x hx hxu hcx
    rcases List.mem_append.mp ((hmem x).mpr ⟨hx, hcx⟩) with hxu' | hxw
    · exact absurd hxu' hxu
    · rcases List.mem_cons.mp hxw with rfl | hxw
      · exact Int.le_refl _
      · exact Int.le_of_lt ((List.pairwise_cons.mp (List.pairwise_append.mp hids).2.1).1 x hxw)
  have husm : ∀ x ∈ us, x ∈ as ∧ q.frameId c ≤ q.frameId x := fun x hx =>
    (hmem x).mp (List.mem_append_left _ hx)
  -- a cursor at the last packet has no packet to pass over
  have hunread : ∀ x ∈ us, q.used x = false := by
    intro x hx
    obtain ⟨hxm, hxc⟩ := husm x hx
    rcases hc.2 with h1 | ⟨-, h1⟩
    · have := mt (h1 x hxm).mp (by omega)
      simpa using this
    · have := h.le_last h1 hgm.1
      have := hbefore x hx
      omega
  obtain ⟨q', hw, hsame, hused, hb⟩ := walk_skip ws h.links.nodup
    (fun x hx => (husm x hx).1) (List.nodup_append.mp hnd).1 h.balanced hunread
    (by intro x hx
        have := hus x hx
        simpa [hasPktPts] using this)
    (by simpa [hasPktPts] using hg) (hcur.trans hhead.symm)
    (by rw [hhead]; exact hnext)
  refine ⟨q', ?_, hsame, ⟨?_, ?_, hb, ?_⟩, hgm.1, ?_⟩
  · rw [hnext.forNext_eq hlen, hw]
  · rw [hsame]
    exact h.links
  · rw [hsame]
    exact h.ids
  · rw [hsame]
    exact h.below
  · have hid : q'.frameId = q.frameId := by
      rw [hsame]
      rfl
    have hlast : q'.lastPkt = q.lastPkt := by rw [hsame]
    rw [hid, hlast]
    rcases hc.2 with h1 | ⟨h1, h2⟩
    · refine .inl fun x hx => ?_
      rw [hused]
      split
      · rename_i hxu
        exact iff_of_true rfl (hbefore x hxu)
      · rename_i hxu
        rw [h1 x hx]
        have := hbehind x hx hxu
        have := hgm.2
        omega
    · refine .inr ⟨fun x hx => ?_, ?_⟩
      · rw [hused, h1 x hx, ite_self]
      · have hgc := h.le_last h2 hgm.1
        rw [h2, h.frameId_inj hc.1 hgm.1 (by have := hgm.2; omega)]

/-- The packet at the cursor is unread at last. -/
theorem Listed.unreadCur (h : q.Listed as) (hcur : q.curPkt = some g) (hg : g ∈ as)
    (hflags : ∀ x ∈ as, x ≠ g → (q.used x = true ↔ q.frameId x < q.frameId g)) :
    ∃ q', q.unreadCur = some q' ∧ MovedTo q q' as g := by
  have hrem := setUsed_remarked h.links.nodup h.balanced hg false
  have hset : (if q.used g then setUsed false q g else q) = setUsed false q g := by
    split
    · rfl
    · rename_i hu
      unfold setUsed
      rw [if_pos (by simpa using hu)]
  refine ⟨setUsed false q g, ?_, ?_, hg, fun x hx => ?_, hrem.balanced⟩
  · unfold PacketQueue.unreadCur
    rw [hcur, ← hset]
    rfl
  · rw [← hcur]
    exact hrem.same
  · rw [setUsed_used]
    split
    · rename_i hxg
      rw [hxg]
      exact iff_of_false (by simp) (Int.lt_irrefl _)
    · rename_i hxg
      exact hflags x hx hxg

/-- The candidates and the new place are packets that satisfy `P`. -/
structure DropSearchOk (P : Nat → Prop) (s : Search × Option Nat) : Prop where
  search : SearchOk P s.1
  goal : ∀ g, s.2 = some g → P g

theorem dropBody_ok {P : Nat → Prop} {isAudio : Bool} {dstPts smallFlag : Int}
    {s : Search × Option Nat} (h : DropSearchOk P s) (ha : P a) :
    DropSearchOk P (q.dropBody isAudio dstPts smallFlag s a).1 := by
  obtain ⟨hp, -, -⟩ := h.search.push ha
  unfold dropBody
  split
  · dsimp only
    split
    · refine ⟨hp, fun g hg => ?_⟩
      obtain ⟨m1, hm1, hch⟩ := Option.bind_eq_some_iff.mp hg
      have := choose_mem (fun p => (q.pkt p).pts) dstPts smallFlag (hp.m1 m1 hm1) ha ha
      rw [hch] at this
      exact this
    · exact ⟨hp, fun g hg => by cases hg⟩
  · exact h

/-- The new place is not before the cursor. -/
theorem Listed.dropGoal (h : q.Listed as) (isAudio : Bool) (dstPts smallFlag : Int) (hc : c ∈ as) :
    ∃ o, q.dropGoal isAudio dstPts smallFlag c = some o ∧
      ∀ g, o = some g → g ∈ as ∧ q.frameId c ≤ q.frameId g := by
  obtain ⟨xs, ys, has, hnext, -, hlen, -, hmem, -⟩ := h.from_mem hc
  have hstart : DropSearchOk (fun x => x ∈ as ∧ q.frameId c ≤ q.frameId x)
      (⟨none, none, false⟩, none) :=
    ⟨searchOk_start fun m hm => (by cases hm), fun g hg => (by cases hg)⟩
  have hwalk : DropSearchOk (fun x => x ∈ as ∧ q.frameId c ≤ q.frameId x)
      (walk (q.dropBody isAudio dstPts smallFlag) (c :: ys) (⟨none, none, false⟩, none)).1 :=
    walk_inv (fun _ b hb h => dropBody_ok h ((hmem b).mp hb)) hstart
  refine ⟨_, ?_, hwalk.goal⟩
  unfold PacketQueue.dropGoal
  rw [hnext.forNext_eq hlen]
  rfl

/-- The packets up to the new place count as read. -/
theorem Listed.dropTo (h : q.Listed as) (hc : q.AtCursor as c) (hg : g ∈ as)
    (hle : q.frameId c ≤ q.frameId g) :
    ∃ q1 q', PacketQueue.markFrom forceUsed (fun p => q.frameId p < q.frameId g) c q =
        some (q1, some g) ∧
      PacketQueue.unreadCur { q1 with curPkt := some g } = some q' ∧ MovedTo q q' as g := by
  have hunread : ∀ x ∈ as, q.frameId c ≤ q.frameId x → q.frameId x < q.frameId g →
      q.used x = false := by
    intro x hx hcx hxg
    rcases hc.2 with h1 | ⟨-, h1⟩
    · have := mt (h1 x hx).mp (by omega)
      simpa using this
    · have := h.le_last h1 hg
      omega
  obtain ⟨⟨q1, stop⟩, hr, hrem, hused, hstop⟩ := h.markFrom
    (fun p => q.frameId p < q.frameId g) (marks_forceUsed h.links.nodup) hc.1
    (by intro x y hxy hy
        have hy := of_decide_eq_true hy
        apply decide_eq_true
        omega)
    (fun x hx hcx hxg => hunread x hx hcx (of_decide_eq_true hxg))
  have hsg : stop = some g := hstop g hg hle (by simp) fun x hx => decide_eq_true hx
  dsimp only at hrem hused
  have hsame := hrem.same
  have hl1 : q1.Listed as := by
    refine ⟨?_, ?_, hrem.balanced, ?_⟩
    · rw [hsame]
      exact h.links
    · rw [hsame]
      exact h.ids
    · rw [hsame]
      exact h.below
  have hid : q1.frameId = q.frameId := hrem.frameId
  obtain ⟨q', hq', hm⟩ := (hl1.moveTo (g := g)).unreadCur (g := g) rfl hg (by
    intro x hx hxg
    change q1.used x = true ↔ q1.frameId x < q1.frameId g
    have hne : q.frameId x ≠ q.frameId g := fun he => hxg (h.frameId_inj hx hg he)
    rw [hid, hused x hx]
    split
    · rename_i hx'
      exact iff_of_true rfl (of_decide_eq_true hx'.2)
    · rename_i hx'
      simp only [decide_eq_true_eq] at hx'
      rcases hc.2 with h1 | ⟨h1, h2⟩
      · rw [h1 x hx]
        omega
      · have := h.le_last h2 hx
        have := h.le_last h2 hg
        exact iff_of_true (h1 x hx) (by omega))
  refine ⟨q1, q', ?_, hq', hm.after (c := g) ?_⟩
  · rw [hr, hsg]
  · rw [hsame]

/-- The places `dropframes` moves the cursor to: the first packet with a pts, which it has to
find when a packet has a timestamp at all, and from there to the new one. -/
def DropOk (q : PacketQueue) (isAudio : Bool) (dstPts smallFlag : Int) : Prop :=
  ∀ c p, q.curPkt = some c → q.findFrom q.next q.hasPts c = some (some p) →
    ∃ c1 o, q.findFrom q.next q.hasPktPts c = some (some c1) ∧
      q.dropGoal isAudio dstPts smallFlag c1 = some o ∧
      q.bytesBefore (o.getD c1) = q.backwardsize

theorem Kept.dropframes {rf dstPts smallFlag : Int} {isAudio : Bool} (h : q.Kept rf as)
    (hs : q.DropOk isAudio dstPts smallFlag) :
    ∃ q' r, q.dropframes isAudio dstPts smallFlag = some (q', r) ∧ q'.Kept rf as := by
  have hl := h.inv.holds.listed h.inv.below
  cases hcur : q.curPkt with
  | none => exact ⟨q, -1, by unfold PacketQueue.dropframes; rw [hcur], h⟩
  | some c =>
  have hc := h.inv.holds.cur_mem hcur
  obtain ⟨xs, ys, -, hnext, -, hlen, -⟩ := hl.from_mem hc.1
  have hfind := findFrom_eq (q := q) q.hasPts hnext hlen
  unfold PacketQueue.dropframes
  simp only [hcur, hfind, Option.bind_eq_bind, Option.bind_some]
  cases hp : (c :: ys).find? q.hasPts with
  | none => exact ⟨q, -1, rfl, h⟩
  | some p =>
  rw [hp] at hfind
  obtain ⟨c1, o, hfind1, hgoal, hbytes⟩ := hs c p hcur hfind
  obtain ⟨q1, hskip, hsame, hl1, hc1⟩ := hl.skip hc hcur hfind1
  have hcur1 : q1.curPkt = some c1 := by rw [hsame]
  have hgoal1 : q1.dropGoal isAudio dstPts smallFlag c1 = some o := by
    rw [← hgoal, hsame]
    rfl
  obtain ⟨o', ho', hmem⟩ := hl1.dropGoal isAudio dstPts smallFlag hc1.1
  obtain rfl : o' = o := Option.some_inj.mp (ho'.symm.trans hgoal1)
  simp only [hskip, hcur1, hgoal1, Option.bind_some]
  cases o' with
  | none =>
    obtain ⟨q', hq', hm⟩ := hl1.unreadCur hcur1 hc1.1 (by
      intro x hx hxc
      rcases hc1.2 with h1 | ⟨h1, h2⟩
      · exact h1 x hx
      · have := hl1.le_last h2 hx
        have hne : q1.frameId x ≠ q1.frameId c1 := fun he => hxc (hl1.frameId_inj hx hc1.1 he)
        exact iff_of_true (h1 x hx) (by omega))
    refine ⟨q', -1, ?_, (hm.after hsame).kept h hbytes⟩
    rw [hq']
    rfl
  | some g =>
    obtain ⟨hg, hle⟩ := hmem g rfl
    obtain ⟨q2, q', hmark, hq', hm⟩ := hl1.dropTo hc1 hg hle
    refine ⟨q', 0, ?_, (hm.after hsame).kept h hbytes⟩
    simp only [hmark, Option.bind_some, hq']

/-! ## Puts that keep the queue -/

/-- A put drops the first packet of a full queue before the allocations, and the data of the side
data is copied without a look at what `av_malloc` has given. -/
def PutOk (q : PacketQueue) (pkt : AvPacket) (mem : Alloc) : Prop :=
  (q.nbPackets = q.maxPackets → mem.Succeeds pkt ∧ 2 ≤ q.nbPackets) ∧
    ∀ i, mem = .itemFails i → mem.Succeeds pkt

theorem putUpdate_of_succeeds {mem : Alloc} {pkt : AvPacket} (h : mem.Succeeds pkt) (ready : Bool)
    (rf : Int) : q.putUpdate ready rf pkt mem = q.putUpdate ready rf pkt .ok := by
  have hcopy := cacheAvNewPacket_of_succeeds h
  have hok : cacheAvNewPacket pkt .ok = some (some pkt.copy) := rfl
  unfold putUpdate
  cases mem with
  | nodeFails => cases h
  | _ => simp only [hcopy, hok]

/-- `read_frames` of `avpkt_cache_put` after a put with the result `r`. -/
def readAfter (readFrames r : Int) : Int := if r ≥ 0 ∨ r = -2 then readFrames + 1 else readFrames

theorem Kept.putUpdate {rf : Int} (h : q.Kept rf as) (ready : Bool) (pkt : AvPacket) (mem : Alloc)
    (hallowed : ready = true → q.nbPackets = q.maxPackets → 1 ≤ q.framesForSeekBackward)
    (hok : ready = true → q.PutOk pkt mem) :
    ∃ q' r as', q.putUpdate ready rf pkt mem = some (q', r) ∧
      q'.Kept (readAfter rf r) as' := by
  cases ready with
  | false =>
    refine ⟨q, -2, as, rfl, ?_⟩
    exact ⟨h.inv.mono (show rf ≤ rf + 1 by omega), h.count, h.room⟩
  | true =>
    have hallowed := hallowed rfl
    obtain ⟨hfull, hitem⟩ := hok rfl
    have hfail : readAfter rf (-1) = rf := if_neg (by decide)
    by_cases hs : mem.Succeeds pkt
    · obtain ⟨q', as', hq, hk, -⟩ := h.put (fun hf => ⟨hallowed hf, (hfull hf).2⟩) pkt
      exact ⟨q', 0, as', (putUpdate_of_succeeds hs true rf).trans hq, hk⟩
    · have hroom : q.nbPackets ≠ q.maxPackets := fun hf => hs (hfull hf).1
      -- a packet that the code says it could not copy leaves the queue as it is
      have hcopy : cacheAvNewPacket pkt mem = some none → mem ≠ .nodeFails →
          q.putUpdate true rf pkt mem = some (q, -1) := by
        intro hc hn
        unfold PacketQueue.putUpdate
        cases mem with
        | nodeFails => exact absurd rfl hn
        | _ =>
          simp only [Bool.true_eq_false, if_false, if_neg hroom, hc, Option.bind_eq_bind,
            Option.bind_some]
      cases mem with
      | ok => exact absurd trivial hs
      | nodeFails =>
        refine ⟨{ q with maxPackets := if q.nbPackets > 0 then q.nbPackets else q.maxPackets }, -1,
          as, ?_, ?_⟩
        · unfold PacketQueue.putUpdate
          simp only [Bool.true_eq_false, if_false, if_neg hroom, Option.bind_eq_bind,
            Option.bind_some]
        · have hi := h.inv
          have hh := hi.holds
          refine ⟨⟨⟨hh.links, hh.ids, hh.cursor, hh.backward, hh.forward, hh.backwardBytes,
            hh.forwardBytes⟩, hi.below, ?_⟩, h.count, ?_⟩
          · rw [hfail]
            exact hi.read
          · dsimp only
            split
            · exact Int.le_refl _
            · exact h.room
      | dataFails => exact ⟨q, -1, as, hcopy rfl (by simp), hfail ▸ h⟩
      | sideDataFails =>
        have hside : pkt.sideData.length > 0 := List.length_pos_iff.mpr hs
        exact ⟨q, -1, as, hcopy (if_pos hside) (by simp), hfail ▸ h⟩
      | itemFails i => exact absurd (hitem i rfl) hs

theorem Kept.flush {rf : Int} (h : q.Kept rf as) : q.flush.Kept rf [] := by
  have hroom := h.room
  have hcount := h.count
  exact kept_empty rf DList.empty rfl rfl (show 0 ≤ q.maxPackets by omega) ⟨rfl, rfl⟩ ⟨rfl, rfl⟩

end

end PacketQueue

/-! ## Runs -/

/-- A queue, and `read_frames` of the cache it is in. -/
structure QueueState where
  queue : PacketQueue
  readFrames : Int

inductive QueueOp where
  /-- One call of `packet_queue_put_update`. -/
  | put (ready : Bool) (pkt : AvPacket) (mem : Alloc)
  /-- A frame of another stream has been read. -/
  | otherFrame
  | get
  | seekBypts (seekPts smallFlag : Int) (byKey : Bool)
  | seektoend
  | dropframes (isAudio : Bool) (dstPts smallFlag : Int)
  | flush

def QueueState.step (s : QueueState) : QueueOp → Option QueueState
  | .put ready pkt mem => do
    let r ← s.queue.putUpdate ready s.readFrames pkt mem
    some ⟨r.1, PacketQueue.readAfter s.readFrames r.2⟩
  | .otherFrame => some { s with readFrames := s.readFrames + 1 }
  | .get => some { s with queue := s.queue.get.1 }
  | .seekBypts seekPts smallFlag byKey => do
    let r ← s.queue.seekBypts seekPts smallFlag byKey
    some { s with queue := r.1 }
  | .seektoend => do
    let r ← s.queue.seektoend
    some { s with queue := r.1 }
  | .dropframes isAudio dstPts smallFlag => do
    let r ← s.queue.dropframes isAudio dstPts smallFlag
    some { s with queue := r.1 }
  | .flush => some { s with queue := s.queue.flush }

/-- A run stops where the code would access `NULL`. -/
def queueStep (s : Option QueueState) (op : QueueOp) : Option QueueState × Unit :=
  (s.bind (·.step op), ())

/-- A put into a full queue comes only when a packet has been read. -/
def QueueAllowed (s : Option QueueState) (op : QueueOp) : Prop :=
  ∀ v, s = some v → match op with
    | .put true _ _ => v.queue.nbPackets = v.queue.maxPackets → 1 ≤ v.queue.framesForSeekBackward
    | _ => True

/-- The steps that keep the queue: a put has memory for its side data, one into a full queue has all
of its memory and leaves a packet, and the cursor passes over no bytes, to a packet on the side that was searched. -/
def QueueCareful (s : Option QueueState) (op : QueueOp) : Prop :=
  ∀ v, s = some v → match op with
    | .put true pkt mem => v.queue.PutOk pkt mem
    | .seekBypts seekPts smallFlag byKey => v.queue.SeekOk seekPts smallFlag byKey
    | .seektoend => v.queue.forwardsize = 0
    | .dropframes isAudio dstPts smallFlag => v.queue.DropOk isAudio dstPts smallFlag
    | _ => True

/-- The run has not stopped, and the queue is well formed. -/
def QueueWellFormed (s : Option QueueState) : Prop := ∃ v, s = some v ∧ v.queue.WellFormed

def QueueKept (s : Option QueueState) : Prop :=
  ∃ v as, s = some v ∧ v.queue.Kept v.readFrames as

theorem QueueKept.wellFormed {s : Option QueueState} (h : QueueKept s) : QueueWellFormed s := by
  obtain ⟨v, as, hs, hk⟩ := h
  exact ⟨v, hs, as, hk.inv.holds, hk.count⟩

theorem queueStep_kept (s : Option QueueState) (op : QueueOp) (h : QueueKept s)
    (hok : QueueAllowed s op ∧ QueueCareful s op) : QueueKept (queueStep s op).1 := by
  obtain ⟨⟨q, rf⟩, as, rfl, hk⟩ := h
  have hallowed := hok.1 _ rfl
  have hcare := hok.2 _ rfl
  change QueueKept (QueueState.step ⟨q, rf⟩ op)
  cases op with
  | put ready pkt mem =>
    obtain ⟨q', r, as', hq, hk'⟩ := hk.putUpdate ready pkt mem
      (by rintro rfl; exact hallowed) (by rintro rfl; exact hcare)
    refine ⟨⟨q', PacketQueue.readAfter rf r⟩, as', ?_, hk'⟩
    simp only [QueueState.step, hq, Option.bind_eq_bind, Option.bind_some]
  | otherFrame =>
    exact ⟨_, as, rfl, hk.inv.mono (Int.le_add_of_nonneg_right (by decide)), hk.count, hk.room⟩
  | get => exact ⟨_, as, rfl, hk.get⟩
  | seekBypts seekPts smallFlag byKey =>
    obtain ⟨q', r, hq, hk'⟩ := hk.seekBypts hcare
    refine ⟨⟨q', rf⟩, as, ?_, hk'⟩
    simp only [QueueState.step, hq, Option.bind_eq_bind, Option.bind_some]
  | seektoend =>
    obtain ⟨q', r, hq, hk'⟩ := hk.seektoend hcare
    refine ⟨⟨q', rf⟩, as, ?_, hk'⟩
    simp only [QueueState.step, hq, Option.bind_eq_bind, Option.bind_some]
  | dropframes isAudio dstPts smallFlag =>
    obtain ⟨q', r, hq, hk'⟩ := hk.dropframes hcare
    refine ⟨⟨q', rf⟩, as, ?_, hk'⟩
    simp only [QueueState.step, hq, Option.bind_eq_bind, Option.bind_some]
  | flush => exact ⟨_, [], rfl, hk.flush⟩

def startQueue (streamIndex maxPackets readFrames : Int) : Option QueueState :=
  some ⟨PacketQueue.init streamIndex maxPackets, readFrames⟩

/-- **The queue stays well formed** in every run of careful steps. -/
theorem wellFormed_of_careful {streamIndex maxPackets readFrames : Int} {ops : List QueueOp}
    (hmax : 2 ≤ maxPackets)
    (hok : Each (fun s op => QueueAllowed s op ∧ QueueCareful s op) queueStep
      (startQueue streamIndex maxPackets readFrames) ops) :
    Always QueueWellFormed queueStep (startQueue streamIndex maxPackets readFrames) ops := by
  refine always_inv queueStep_kept (fun _ => QueueKept.wellFormed) ⟨_, [], rfl, ?_⟩ hok
  exact PacketQueue.init_kept _ _ (by omega)

/-- A packet of one byte. -/
def oneByte (pts dts : Int) : AvPacket := ⟨pts, dts, 0, 0, 0, 1, 0, [0], []⟩

/-- A packet of one byte with side data. -/
def oneByteSide (pts dts : Int) : AvPacket := { oneByte pts dts with sideData := [(0, [7])] }

/-- Puts, reads and seeks to where the cursor is. -/
def carefulOps : List QueueOp :=
  [.put true (oneByteSide 10 10) .ok, .put true (oneByteSide 20 20) .sideDataFails,
    .seekBypts 10 0 false, .dropframes false 10 0, .get, .seektoend, .flush]

theorem wellFormed_carefulOps :
    Each (fun s op => QueueAllowed s op ∧ QueueCareful s op) queueStep (startQueue 0 2 0)
        carefulOps ∧
      Always QueueWellFormed queueStep (startQueue 0 2 0) carefulOps := by
  have h : Each (fun s op => QueueAllowed s op ∧ QueueCareful s op) queueStep (startQueue 0 2 0)
      carefulOps := by
    refine ⟨⟨?_, ?_⟩, ⟨?_, ?_⟩, ⟨?_, ?_⟩, ⟨?_, ?_⟩, ⟨?_, ?_⟩, ⟨?_, ?_⟩, ⟨?_, ?_⟩, trivial⟩
    · rintro v ⟨⟩ hfull
      exact absurd hfull (by decide)
    · rintro v ⟨⟩
      exact ⟨fun hfull => absurd hfull (by decide), fun i hi => nomatch hi⟩
    · rintro v ⟨⟩ hfull
      exact absurd hfull (by decide)
    · rintro v ⟨⟩
      exact ⟨fun hfull => absurd hfull (by decide), fun i hi => nomatch hi⟩
    · exact fun _ _ => trivial
    · rintro v ⟨⟩ f l c o ⟨⟩ ⟨⟩ ⟨⟩ ⟨⟩
      exact ⟨by decide, by decide⟩
    · exact fun _ _ => trivial
    · rintro v ⟨⟩ c p ⟨⟩ -
      exact ⟨0, some 0, by decide, by decide, by decide⟩
    · exact fun _ _ => trivial
    · exact fun _ _ => trivial
    · exact fun _ _ => trivial
    · rintro v ⟨⟩
      rfl
    · exact fun _ _ => trivial
    · exact fun _ _ => trivial
  exact ⟨h, wellFormed_of_careful (by decide) h⟩

/-- The data of a side data item that finds no memory is copied to `NULL`. -/
example : queueStep (startQueue 0 2 0) (.put true (oneByteSide 10 10) (.itemFails 0)) = (none, ()) :=
  rfl

/-- A seek to the end of a queue of one unread packet of one byte: `backwardsize` stays 0. -/
theorem not_wellFormed_seektoend :
    Each QueueAllowed queueStep (startQueue 0 2 0) [.put true (oneByte 10 10) .ok, .seektoend] ∧
      ¬ Always QueueWellFormed queueStep (startQueue 0 2 0)
        [.put true (oneByte 10 10) .ok, .seektoend] := by
  constructor
  · refine ⟨?_, fun _ _ => trivial, trivial⟩
    rintro v ⟨⟩ hfull
    exact absurd hfull (by decide)
  · rintro ⟨-, -, v, hv, as, h, hcount⟩
    cases hv
    have hlen : (1 : Int) = as.length := hcount
    have has : [0] = as := h.links.fwd.nodesFrom_eq (show as.length ≤ 1 by omega)
    subst has
    exact absurd h.backwardBytes (by decide)

end VendorAmlogic.Player
