import VendorAmlogic.Lib.Run
import VendorAmlogic.Player.PacketQueue

/-!
# The packet cache: one order out of three queues

`avpkt_cache_put_update`, `avpkt_cache_check_can_get` and
`avpkt_cache_get_byindex` of `amplayer/player/player_ffmpeg_cache.c`. The next
packet is the one with the smallest frame id at the cursors of the queues. All
packets that are still to be read, in the order they were put, are the
abstract state: each queue has those of its stream.
-/

namespace VendorAmlogic.Player

open VendorAmlogic.Lib

/-! ## The cache -/

inductive Stream where
  | audio
  | video
  | sub
  deriving DecidableEq

/-- The streams that are played, and their indices in the file. -/
structure Streams where
  has : Stream → Bool
  index : Stream → Int
  nonneg : ∀ s, has s = true → 0 ≤ index s
  distinct : ∀ s t, has s = true → s ≠ t → index s ≠ index t

/-- The queue that a packet is put into. -/
def Streams.of (st : Streams) (idx : Int) : Option Stream :=
  if st.has .audio ∧ idx = st.index .audio then some .audio
  else if st.has .video ∧ idx = st.index .video then some .video
  else if st.has .sub ∧ idx = st.index .sub then some .sub
  else none

structure Cache where
  streams : Streams
  queue : Stream → PacketQueue
  readFrames : Int
  trickmode : Bool

namespace Cache

/-- `avpkt_cache_init`, with the lengths of the queues. -/
def init (streams : Streams) (maxPacket : Stream → Int) : Cache where
  streams := streams
  queue := fun s => PacketQueue.init (streams.index s) (maxPacket s)
  readFrames := 0
  trickmode := false

/-- `avpkt_cache_put_update`, with memory for the packet and the state of the cache 2. -/
def putUpdate (c : Cache) (pkt : AvPacket) : Option (Cache × Int) :=
  match c.streams.of pkt.streamIndex with
  | none => some (c, 0)
  | some s => do
    let r ← (c.queue s).putUpdate true c.readFrames pkt .ok
    some ({ c with queue := Function.update c.queue s r.1 }, r.2)

/-- One of the three blocks of `avpkt_cache_check_can_get`, on `small_frame_id` and
`stream_idx`. -/
def consider (c : Cache) (acc : Int × Int) (s : Stream) : Option (Int × Int) :=
  if c.streams.has s ∧ (c.queue s).framesForSeekForward > 0 then do
    let a ← (c.queue s).curPkt
    let id := (c.queue s).frameId a
    some (if acc.1 = -1 ∨ id < acc.1 then (id, c.streams.index s) else acc)
  else some acc

/-- `avpkt_cache_check_can_get`: the `stream_idx`, which the caller sets to -1. -/
def checkCanGet (c : Cache) : Option Int := do
  let acc ← c.consider (-1, -1) .video
  if c.trickmode then some acc.2
  else do
    let acc ← c.consider acc .audio
    let acc ← c.consider acc .sub
    some acc.2

/-- `avpkt_cache_get_byindex`. -/
def getByindex (c : Cache) (idx : Int) : Cache × Option (Int × AvPacket) :=
  let get (s : Stream) :=
    let r := (c.queue s).get
    ({ c with queue := Function.update c.queue s r.1 },
      r.2.map fun pkt => (((c.queue s).curPkt.map (c.queue s).frameId).getD 0, pkt))
  if idx = c.streams.index .audio then get .audio
  else if idx = c.streams.index .video then get .video
  else if idx = c.streams.index .sub then get .sub
  else (c, none)

end Cache

/-! ## Runs -/

/-- A cache and what has happened to it: packets with their frame ids. -/
structure CacheLog where
  cache : Cache
  puts : List (Int × AvPacket)
  out : List (Int × AvPacket)
  dropped : List (Int × AvPacket)

inductive CacheOp where
  | put (pkt : AvPacket)
  | get

/-- What a put into this queue drops. -/
def PacketQueue.toDrop (q : PacketQueue) : Option (Int × AvPacket) :=
  if q.nbPackets = q.maxPackets then q.firstPkt.map fun a => (q.frameId a, q.pkt a) else none

/-- The put, and then the increment of `read_frames`. -/
def CacheLog.put (w : CacheLog) (pkt : AvPacket) : Option CacheLog := do
  let r ← w.cache.putUpdate pkt
  let w' := { w with cache := { r.1 with readFrames := r.1.readFrames + 1 } }
  match w.cache.streams.of pkt.streamIndex with
  | none => some w'
  | some s =>
    some { w' with
      puts := w.puts ++ [(w.cache.readFrames + 1, pkt)]
      dropped := w.dropped ++ (w.cache.queue s).toDrop.toList }

/-- The search for the next packet, and the get when there is one. -/
def CacheLog.get (w : CacheLog) : Option CacheLog := do
  let idx ← w.cache.checkCanGet
  if idx < 0 then some w
  else
    let r := w.cache.getByindex idx
    some { w with cache := r.1, out := w.out ++ r.2.toList }

/-- A run stops where the code would access `NULL`. -/
def cacheStep (w : Option CacheLog) (op : CacheOp) : Option CacheLog × Unit :=
  match w, op with
  | none, _ => (none, ())
  | some w, .put pkt => (w.put pkt, ())
  | some w, .get => (w.get, ())

/-- A put into a full queue comes only when the queue has a packet that has been read. -/
def CacheAllowed (w : Option CacheLog) : CacheOp → Prop
  | .put pkt => ∀ v s, w = some v → v.cache.streams.of pkt.streamIndex = some s →
      (v.cache.queue s).nbPackets = (v.cache.queue s).maxPackets →
      1 ≤ (v.cache.queue s).framesForSeekBackward
  | .get => True

/-! ## Streams -/

theorem Streams.of_eq_some {st : Streams} {idx : Int} {s : Stream} (h : st.of idx = some s) :
    st.has s = true ∧ idx = st.index s := by
  unfold Streams.of at h
  split at h
  · cases h
    assumption
  · split at h
    · cases h
      assumption
    · split at h
      · cases h
        assumption
      · cases h

/-! ## Queues of a cache -/

namespace PacketQueue

variable {q : PacketQueue} {rf : Int} {as : List Nat}

theorem Holds.forward_unread (h : q.Holds as) : q.framesForSeekForward = (q.unread as).length := by
  rw [h.forward, unread, List.length_map]

/-- Where there is something to read, the cursor is at the first of it. -/
theorem Holds.cur_unread (h : q.Holds as) {x : Int × AvPacket} {l : List (Int × AvPacket)}
    (hx : q.unread as = x :: l) :
    ∃ c, q.curPkt = some c ∧ q.used c = false ∧ x = (q.frameId c, q.pkt c) ∧
      q.get.1.unread as = l := by
  have hmem : ∃ a ∈ as, q.used a = false := by
    have : x ∈ q.unread as := hx ▸ List.mem_cons_self
    obtain ⟨a, ha, -⟩ := List.mem_map.mp this
    exact ⟨a, (List.mem_filter.mp ha).1, by simpa using (List.mem_filter.mp ha).2⟩
  obtain ⟨a, ha, hu⟩ := hmem
  cases hc : q.curPkt with
  | none =>
    have := h.cursor
    unfold Cursor at this
    rw [hc] at this
    rw [this] at ha
    cases ha
  | some c =>
    have huc : q.used c = false := by
      obtain ⟨hm, h1 | h1⟩ := h.cur_mem hc
      · have := mt (h1 c hm).mp (Int.lt_irrefl _)
        simpa using this
      · rw [h1.1 a ha] at hu
        cases hu
    obtain ⟨l', hl, hl'⟩ := h.unread_cons hc huc
    rw [hx] at hl
    cases hl
    exact ⟨c, rfl, huc, rfl, hl'⟩

/-- What a get reads. -/
theorem haveRead_get {c : Nat} (hc : q.curPkt = some c) (hu : q.used c = false) :
    q.get.1.haveRead as ⊆ (q.frameId c, q.pkt c) :: q.haveRead as := by
  intro y hy
  obtain ⟨a, ha, rfl⟩ := List.mem_map.mp hy
  obtain ⟨hm, ha⟩ := List.mem_filter.mp ha
  unfold PacketQueue.get at ha ⊢
  rw [hc] at ha ⊢
  simp only [hu, if_true] at ha ⊢
  by_cases hac : a = c
  · subst hac
    exact List.mem_cons_self
  · rw [Function.update_of_ne hac] at ha
    exact List.mem_cons_of_mem _ (List.mem_map.mpr ⟨a, List.mem_filter.mpr ⟨hm, ha⟩, rfl⟩)

/-- What a full queue drops has been read. -/
theorem Kept.toDrop_read (h : q.Kept rf as) (hl : q.CanLose) :
    q.toDrop.toList ⊆ q.haveRead as := by
  unfold toDrop
  split
  · rename_i hfull
    obtain ⟨hb, h2⟩ := hl hfull
    have hc := h.count
    obtain ⟨p, f, bs, head, rfl, -, hu, -⟩ := h.inv.evict (by omega) hb
    rw [h.inv.holds.links.first_eq]
    unfold haveRead
    rw [List.filter_cons_of_pos (by simpa using hu)]
    simp
  · simp

end PacketQueue

/-! ## The invariant -/

/-- The copy of a packet that the cache keeps. -/
def keptCopy (x : Int × AvPacket) : Int × AvPacket := (x.1, x.2.copy)

/-- `rest` is what is still to be read, over all queues. -/
structure CacheInv (w : CacheLog) (as : Stream → List Nat) (rest : List (Int × AvPacket)) : Prop where
  kept : ∀ s, w.cache.streams.has s = true →
    (w.cache.queue s).Kept w.cache.readFrames (as s) ∧ 2 ≤ (w.cache.queue s).maxPackets
  unread : ∀ s, w.cache.streams.has s = true →
    (w.cache.queue s).unread (as s) =
      rest.filter fun x => w.cache.streams.of x.2.streamIndex = some s
  read : ∀ s, w.cache.streams.has s = true → (w.cache.queue s).haveRead (as s) ⊆ w.out
  order : w.puts.map keptCopy = w.out ++ rest
  ids : rest.Pairwise fun x y => x.1 < y.1
  bound : ∀ x ∈ rest, 0 < x.1 ∧ x.1 ≤ w.cache.readFrames
  owned : ∀ x ∈ rest, ∃ s, w.cache.streams.of x.2.streamIndex = some s
  dropped : w.dropped ⊆ w.out
  readFrames : 0 ≤ w.cache.readFrames
  trickmode : w.cache.trickmode = false

section
variable {w : CacheLog} {as : Stream → List Nat} {rest : List (Int × AvPacket)}

theorem CacheInv.put_other {pkt : AvPacket} (h : CacheInv w as rest)
    (hs : w.cache.streams.of pkt.streamIndex = none) :
    ∃ w', w.put pkt = some w' ∧ CacheInv w' as rest := by
  have hput : w.put pkt =
      some { w with cache := { w.cache with readFrames := w.cache.readFrames + 1 } } := by
    unfold CacheLog.put Cache.putUpdate
    simp only [hs]
    rfl
  have hrf := h.readFrames
  refine ⟨_, hput, fun s hs => ?_, h.unread, h.read, h.order, h.ids, fun x hx => ?_, h.owned,
    h.dropped, ?_, h.trickmode⟩
  · obtain ⟨hk, hm⟩ := h.kept s hs
    exact ⟨⟨hk.inv.mono (by dsimp only; omega), hk.count, hk.room⟩, hm⟩
  · have := h.bound x hx
    dsimp only
    omega
  · dsimp only
    omega

theorem CacheInv.put {pkt : AvPacket} {s : Stream} (h : CacheInv w as rest)
    (hs : w.cache.streams.of pkt.streamIndex = some s)
    (hl : (w.cache.queue s).nbPackets = (w.cache.queue s).maxPackets →
      1 ≤ (w.cache.queue s).framesForSeekBackward) :
    ∃ w' as', w.put pkt = some w' ∧
      CacheInv w' as' (rest ++ [(w.cache.readFrames + 1, pkt.copy)]) := by
  obtain ⟨hhas, -⟩ := Streams.of_eq_some hs
  obtain ⟨hk, hmax⟩ := h.kept s hhas
  have hcl : (w.cache.queue s).CanLose := fun hf => ⟨hl hf, by omega⟩
  obtain ⟨q', as', hq, hk', hmax', hun, hre⟩ := hk.put hcl pkt
  have hdrop := hk.toDrop_read hcl
  have hput : w.put pkt = some
      { w with
        cache := { w.cache with
          queue := Function.update w.cache.queue s q'
          readFrames := w.cache.readFrames + 1 }
        puts := w.puts ++ [(w.cache.readFrames + 1, pkt)]
        dropped := w.dropped ++ (w.cache.queue s).toDrop.toList } := by
    unfold CacheLog.put Cache.putUpdate
    simp only [hs, hq]
    rfl
  have hrf := h.readFrames
  refine ⟨_, Function.update as s as', hput, fun t ht => ?_, fun t ht => ?_, fun t ht => ?_, ?_, ?_,
    ?_, ?_, ?_, ?_, h.trickmode⟩
  · dsimp only
    by_cases hts : t = s
    · subst hts
      rw [Function.update_self, Function.update_self]
      exact ⟨hk', by omega⟩
    · rw [Function.update_of_ne hts, Function.update_of_ne hts]
      obtain ⟨hkt, hmt⟩ := h.kept t ht
      exact ⟨⟨hkt.inv.mono (by omega), hkt.count, hkt.room⟩, hmt⟩
  · dsimp only
    rw [List.filter_append, ← h.unread t ht]
    by_cases hts : t = s
    · subst hts
      rw [Function.update_self, Function.update_self, hun]
      congr 1
      rw [List.filter_cons_of_pos (by exact decide_eq_true hs), List.filter_nil]
    · rw [Function.update_of_ne hts, Function.update_of_ne hts, List.filter_cons_of_neg,
        List.filter_nil, List.append_nil]
      change ¬ decide (w.cache.streams.of pkt.streamIndex = some t) = true
      rw [hs]
      simpa using fun hst => hts hst.symm
  · dsimp only
    by_cases hts : t = s
    · subst hts
      rw [Function.update_self, Function.update_self]
      exact List.Subset.trans hre (h.read t ht)
    · rw [Function.update_of_ne hts, Function.update_of_ne hts]
      exact h.read t ht
  · dsimp only
    rw [List.map_append, h.order, List.append_assoc]
    rfl
  · apply List.pairwise_append.mpr
    refine ⟨h.ids, List.pairwise_singleton _ _, fun x hx y hy => ?_⟩
    rw [List.mem_singleton.mp hy]
    have := (h.bound x hx).2
    dsimp only
    omega
  · intro x hx
    dsimp only
    rcases List.mem_append.mp hx with hx | hx
    · have := h.bound x hx
      omega
    · rw [List.mem_singleton.mp hx]
      dsimp only
      omega
  · intro x hx
    rcases List.mem_append.mp hx with hx | hx
    · exact h.owned x hx
    · rw [List.mem_singleton.mp hx]
      exact ⟨s, hs⟩
  · exact List.append_subset.mpr ⟨h.dropped, List.Subset.trans hdrop (h.read s hhas)⟩
  · dsimp only
    omega

/-- A queue with nothing to read is passed over. -/
theorem CacheInv.consider_nil {s : Stream} {acc : Int × Int} (h : CacheInv w as rest)
    (hn : rest.filter (fun x => w.cache.streams.of x.2.streamIndex = some s) = []) :
    w.cache.consider acc s = some acc := by
  unfold Cache.consider
  rw [if_neg]
  rintro ⟨hs, hf⟩
  rw [(h.kept s hs).1.inv.holds.forward_unread, h.unread s hs, hn] at hf
  cases hf

/-- A queue with something to read offers the first frame id of it. -/
theorem CacheInv.consider_cons {s : Stream} {acc : Int × Int} {y : Int × AvPacket}
    {l : List (Int × AvPacket)} (h : CacheInv w as rest) (hs : w.cache.streams.has s = true)
    (hn : rest.filter (fun x => w.cache.streams.of x.2.streamIndex = some s) = y :: l) :
    w.cache.consider acc s =
      some (if acc.1 = -1 ∨ y.1 < acc.1 then (y.1, w.cache.streams.index s) else acc) := by
  have hun := h.unread s hs
  rw [hn] at hun
  obtain ⟨c, hc, -, hy, -⟩ := (h.kept s hs).1.inv.holds.cur_unread hun
  unfold Cache.consider
  rw [if_pos, hc, hy]
  · rfl
  · refine ⟨hs, ?_⟩
    rw [(h.kept s hs).1.inv.holds.forward_unread, hun, List.length_cons]
    omega

/-- The search goes on from an `acc` that is not the first packet, or has found it. -/
theorem CacheInv.consider {x : Int × AvPacket} {s0 : Stream} {acc : Int × Int}
    (h : CacheInv w as (x :: rest)) (s : Stream) (hx : w.cache.streams.of x.2.streamIndex = some s0)
    (hacc : acc.1 = -1 ∨ x.1 < acc.1 ∨ acc = (x.1, w.cache.streams.index s0)) :
    ∃ acc', w.cache.consider acc s = some acc' ∧
      (s = s0 ∨ acc = (x.1, w.cache.streams.index s0) → acc' = (x.1, w.cache.streams.index s0)) ∧
      (acc'.1 = -1 ∨ x.1 < acc'.1 ∨ acc' = (x.1, w.cache.streams.index s0)) := by
  obtain ⟨hs0, -⟩ := Streams.of_eq_some hx
  have hpos := (h.bound x List.mem_cons_self).1
  by_cases hss : s = s0
  · subst hss
    refine ⟨_, h.consider_cons hs0 (List.filter_cons_of_pos (decide_eq_true hx)), fun _ => ?_, ?_⟩
    · split
      · rfl
      · rcases hacc with ha | ha | ha
        · omega
        · omega
        · exact ha
    · split
      · exact .inr (.inr rfl)
      · exact hacc
  · cases hn : (x :: rest).filter (fun y => w.cache.streams.of y.2.streamIndex = some s) with
    | nil => exact ⟨acc, h.consider_nil hn, fun ha => ha.resolve_left hss, hacc⟩
    | cons y l =>
      have hy : y ∈ (x :: rest).filter (fun y => w.cache.streams.of y.2.streamIndex = some s) := by
        rw [hn]
        exact List.mem_cons_self
      obtain ⟨hy, hys⟩ := List.mem_filter.mp hy
      have hys : w.cache.streams.of y.2.streamIndex = some s := of_decide_eq_true hys
      have hlt : x.1 < y.1 := by
        rcases List.mem_cons.mp hy with rfl | hy
        · rw [hx] at hys
          exact absurd (Option.some.inj hys).symm hss
        · exact (List.pairwise_cons.mp h.ids).1 y hy
      refine ⟨_, h.consider_cons (Streams.of_eq_some hys).1 hn, fun ha => ?_, ?_⟩
      · rw [ha.resolve_left hss]
        rw [if_neg]
        dsimp only
        omega
      · split
        · exact .inr (.inl hlt)
        · exact hacc

/-- The search finds the stream of the first packet. -/
theorem CacheInv.checkCanGet {x : Int × AvPacket} {s0 : Stream} (h : CacheInv w as (x :: rest))
    (hx : w.cache.streams.of x.2.streamIndex = some s0) :
    w.cache.checkCanGet = some (w.cache.streams.index s0) := by
  have hstart : ((-1, -1) : Int × Int).1 = -1 := rfl
  obtain ⟨a1, h1, h1', h1''⟩ := h.consider .video hx (.inl hstart)
  obtain ⟨a2, h2, h2', h2''⟩ := h.consider .audio hx h1''
  obtain ⟨a3, h3, h3', -⟩ := h.consider .sub hx h2''
  have hfin : a3 = (x.1, w.cache.streams.index s0) := by
    cases s0 with
    | video => exact h3' (.inr (h2' (.inr (h1' (.inl rfl)))))
    | audio => exact h3' (.inr (h2' (.inl rfl)))
    | sub => exact h3' (.inl rfl)
  unfold Cache.checkCanGet
  simp only [h1, h2, h3, h.trickmode, Option.bind_eq_bind, Option.bind_some, Bool.false_eq_true,
    if_false, hfin]

theorem CacheInv.checkCanGet_nil (h : CacheInv w as []) : w.cache.checkCanGet = some (-1) := by
  have hn : ∀ s acc, w.cache.consider acc s = some acc := fun s acc => h.consider_nil rfl
  unfold Cache.checkCanGet
  simp only [hn, h.trickmode, Option.bind_eq_bind, Option.bind_some, Bool.false_eq_true, if_false]

theorem Cache.getByindex_eq {c : Cache} {s : Stream} (hs : c.streams.has s = true) :
    c.getByindex (c.streams.index s) =
      ({ c with queue := Function.update c.queue s (c.queue s).get.1 },
        (c.queue s).get.2.map fun pkt =>
          (((c.queue s).curPkt.map (c.queue s).frameId).getD 0, pkt)) := by
  have hd := fun t => c.streams.distinct s t hs
  unfold Cache.getByindex
  cases s with
  | audio => rw [if_pos rfl]
  | video => rw [if_neg (hd .audio (by decide)), if_pos rfl]
  | sub => rw [if_neg (hd .audio (by decide)), if_neg (hd .video (by decide)), if_pos rfl]

theorem CacheInv.get {x : Int × AvPacket} (h : CacheInv w as (x :: rest)) :
    ∃ w', w.get = some w' ∧ CacheInv w' as rest := by
  obtain ⟨s, hx⟩ := h.owned x List.mem_cons_self
  obtain ⟨hs, -⟩ := Streams.of_eq_some hx
  obtain ⟨hk, hmax⟩ := h.kept s hs
  have hun := h.unread s hs
  rw [List.filter_cons_of_pos (by exact decide_eq_true hx)] at hun
  obtain ⟨c, hc, hu, hxc, hun'⟩ := hk.inv.holds.cur_unread hun
  have hget : (w.cache.queue s).get.2 = some x.2 := by
    rw [hxc]
    unfold PacketQueue.get
    simp only [hc, hu, if_true]
  have hw : w.get = some { w with
      cache := { w.cache with
        queue := Function.update w.cache.queue s (w.cache.queue s).get.1 }
      out := w.out ++ [x] } := by
    unfold CacheLog.get
    rw [h.checkCanGet hx, Option.bind_eq_bind, Option.bind_some, if_neg, Cache.getByindex_eq hs,
      hget, hc, hxc]
    · rfl
    · have := w.cache.streams.nonneg s hs
      omega
  have hmax' : (w.cache.queue s).get.1.maxPackets = (w.cache.queue s).maxPackets := by
    unfold PacketQueue.get
    simp only [hc, hu, if_true]
  refine ⟨_, hw, fun t ht => ?_, fun t ht => ?_, fun t ht => ?_, ?_, (List.pairwise_cons.mp h.ids).2,
    ?_, ?_, ?_, h.readFrames, h.trickmode⟩
  · dsimp only
    by_cases hts : t = s
    · subst hts
      rw [Function.update_self]
      exact ⟨hk.get, by omega⟩
    · rw [Function.update_of_ne hts]
      exact h.kept t ht
  · dsimp only
    by_cases hts : t = s
    · subst hts
      rw [Function.update_self, hun']
    · have := h.unread t ht
      rw [List.filter_cons_of_neg] at this
      · rw [Function.update_of_ne hts, this]
      · rw [hx]
        simpa using fun hst => hts hst.symm
  · dsimp only
    by_cases hts : t = s
    · subst hts
      rw [Function.update_self]
      intro y hy
      rcases List.mem_cons.mp (PacketQueue.haveRead_get hc hu hy) with hy | hy
      · rw [hy, ← hxc]
        exact List.mem_append_right _ List.mem_cons_self
      · exact List.mem_append_left _ (h.read t ht hy)
    · rw [Function.update_of_ne hts]
      exact fun y hy => List.mem_append_left _ (h.read t ht hy)
  · dsimp only
    rw [h.order, List.append_assoc]
    rfl
  · exact fun y hy => h.bound y (List.mem_cons_of_mem _ hy)
  · exact fun y hy => h.owned y (List.mem_cons_of_mem _ hy)
  · exact fun y hy => List.mem_append_left _ (h.dropped hy)

theorem CacheInv.get_nil (h : CacheInv w as []) : w.get = some w := by
  unfold CacheLog.get
  rw [h.checkCanGet_nil]
  rfl

end

/-- There is a run behind this state, and it keeps the invariant. -/
def CacheRuns (w : Option CacheLog) : Prop := ∃ v as rest, w = some v ∧ CacheInv v as rest

theorem cacheStep_inv (w : Option CacheLog) (op : CacheOp) (h : CacheRuns w)
    (hok : CacheAllowed w op) : CacheRuns (cacheStep w op).1 := by
  obtain ⟨v, as, rest, rfl, h⟩ := h
  cases op with
  | put pkt =>
    cases hs : v.cache.streams.of pkt.streamIndex with
    | none =>
      obtain ⟨w', hw, h'⟩ := h.put_other hs
      exact ⟨w', as, rest, hw, h'⟩
    | some s =>
      obtain ⟨w', as', hw, h'⟩ := h.put hs (hok v s rfl hs)
      exact ⟨w', as', _, hw, h'⟩
  | get =>
    cases rest with
    | nil => exact ⟨v, as, [], h.get_nil, h⟩
    | cons x rest =>
      obtain ⟨w', hw, h'⟩ := h.get
      exact ⟨w', as, rest, hw, h'⟩

/-- A cache that has just been set up. -/
def CacheLog.init (streams : Streams) (maxPacket : Stream → Int) : CacheLog :=
  ⟨Cache.init streams maxPacket, [], [], []⟩

theorem CacheInv.init {streams : Streams} {maxPacket : Stream → Int}
    (hmax : ∀ s, streams.has s = true → 2 ≤ maxPacket s) :
    CacheInv (CacheLog.init streams maxPacket) (fun _ => []) [] where
  kept := by
    intro s hs
    have := hmax s hs
    exact ⟨PacketQueue.init_kept _ _ (by omega), this⟩
  unread := fun _ _ => rfl
  read := fun _ _ => List.nil_subset _
  order := rfl
  ids := List.Pairwise.nil
  bound := fun _ hx => absurd hx List.not_mem_nil
  owned := fun _ hx => absurd hx List.not_mem_nil
  dropped := List.nil_subset _
  readFrames := Int.le_refl _
  trickmode := rfl

/-! ## Delivery -/

/-- What was got is what was put, each packet once and in this order; when no more can be got,
it is all of it; and what was dropped had been got. -/
def InOrder (w : CacheLog) : Prop :=
  w.out = w.puts.take w.out.length ∧ (w.cache.checkCanGet = some (-1) → w.out = w.puts) ∧
    w.dropped ⊆ w.out

theorem keptCopy_eq_iff (x : Int × AvPacket) : keptCopy x = x ↔ x.2.sideData = [] := by
  obtain ⟨id, pkt⟩ := x
  unfold keptCopy AvPacket.copy
  constructor
  · intro h
    have := congrArg (fun x : Int × AvPacket => x.2.sideData) h
    exact this.symm
  · intro h
    dsimp only at h ⊢
    rw [← h]

theorem map_keptCopy_eq_iff (l : List (Int × AvPacket)) :
    l.map keptCopy = l ↔ ∀ x ∈ l, x.2.sideData = [] := by
  induction l with
  | nil => simp
  | cons x l ih =>
    rw [List.map_cons, List.cons_eq_cons, keptCopy_eq_iff, ih, List.forall_mem_cons]

theorem CacheInv.inOrder_iff {w : CacheLog} {as : Stream → List Nat}
    {rest : List (Int × AvPacket)} (h : CacheInv w as rest) :
    InOrder w ↔ ∀ x ∈ w.puts.take w.out.length, x.2.sideData = [] := by
  have hout : w.out = (w.puts.take w.out.length).map keptCopy := by
    rw [List.map_take, h.order, List.take_left]
  rw [← map_keptCopy_eq_iff]
  constructor
  · intro hi
    rw [← hout]
    exact hi.1
  · intro hmap
    have htake : w.out = w.puts.take w.out.length := hout.trans hmap
    refine ⟨htake, fun hcan => ?_, h.dropped⟩
    cases rest with
    | nil =>
      have hlen : w.out.length = w.puts.length := by
        have := congrArg List.length h.order
        simpa using this.symm
      rw [hlen, List.take_length] at htake
      exact htake
    | cons x rest =>
      obtain ⟨s, hs⟩ := h.owned x List.mem_cons_self
      rw [h.checkCanGet hs] at hcan
      have := w.cache.streams.nonneg s (Streams.of_eq_some hs).1
      have := Option.some.inj hcan
      omega

/-- **One order out of three queues**: in every run the packets come out as they were put in,
but for their side data. -/
theorem inOrder_iff_noSideData {streams : Streams} {maxPacket : Stream → Int} {ops : List CacheOp}
    (hmax : ∀ s, streams.has s = true → 2 ≤ maxPacket s)
    (hok : Each CacheAllowed cacheStep (some (CacheLog.init streams maxPacket)) ops) :
    ∃ w, (run cacheStep (some (CacheLog.init streams maxPacket)) ops).1 = some w ∧
      (InOrder w ↔ ∀ x ∈ w.puts.take w.out.length, x.2.sideData = []) := by
  have h0 : CacheRuns (some (CacheLog.init streams maxPacket)) :=
    ⟨_, _, _, rfl, CacheInv.init hmax⟩
  obtain ⟨w, as, rest, hw, h⟩ := run_inv cacheStep_inv h0 hok
  exact ⟨w, hw, h.inOrder_iff⟩

/-- A file with video, audio and subtitles. -/
def threeStreams : Streams where
  has := fun _ => true
  index
    | .video => 0
    | .audio => 1
    | .sub => 2
  nonneg := by
    intro s _
    cases s <;> decide
  distinct := by
    intro s t _ hst
    cases s <;> cases t <;> first
      | exact absurd rfl hst
      | decide

/-- A packet of a stream, with this side data. -/
def packetOf (stream : Int) (pts : Int) (sideData : List (Nat × List Byte)) : AvPacket :=
  ⟨pts, pts, 0, 3600, 0, 1, stream, [0, 0, 1], sideData⟩

/-- Packets of the three streams. The third one of the video comes into a full queue, which loses
the first one. -/
def threeStreamOps : List CacheOp :=
  [.put (packetOf 0 0 []), .put (packetOf 1 0 []), .get, .put (packetOf 0 3600 []),
    .put (packetOf 0 7200 []), .put (packetOf 2 0 []), .get, .get, .get, .get, .get]

theorem allowed_threeStreamOps :
    Each CacheAllowed cacheStep (some (CacheLog.init threeStreams fun _ => 2)) threeStreamOps := by
  refine ⟨?_, ?_, trivial, ?_, ?_, ?_, trivial, trivial, trivial, trivial, trivial, trivial⟩
  all_goals
    rintro v s ⟨⟩ ⟨⟩ hfull
    revert hfull
    decide

/-- They come out in the order they were put in, and the one that was lost had been read. -/
theorem inOrder_threeStreamOps :
    ∃ w, (run cacheStep (some (CacheLog.init threeStreams fun _ => 2)) threeStreamOps).1 = some w ∧
      w.out = [(1, packetOf 0 0 []), (2, packetOf 1 0 []), (3, packetOf 0 3600 []),
        (4, packetOf 0 7200 []), (5, packetOf 2 0 [])] ∧
      w.dropped = [(1, packetOf 0 0 [])] ∧ InOrder w := by
  obtain ⟨w, hw, hiff⟩ := inOrder_iff_noSideData (fun _ _ => by decide) allowed_threeStreamOps
  have hlog : (run cacheStep (some (CacheLog.init threeStreams fun _ => 2)) threeStreamOps).1.map
      (fun w => (w.puts.map (·.2.sideData), w.out, w.dropped)) =
        some ([[], [], [], [], []], [(1, packetOf 0 0 []), (2, packetOf 1 0 []),
          (3, packetOf 0 3600 []), (4, packetOf 0 7200 []), (5, packetOf 2 0 [])],
          [(1, packetOf 0 0 [])]) :=
    rfl
  rw [hw, Option.map_some, Option.some_inj, Prod.mk.injEq, Prod.mk.injEq] at hlog
  obtain ⟨hside, hout, hdropped⟩ := hlog
  refine ⟨w, hw, hout, hdropped, hiff.mpr fun x hx => ?_⟩
  have hx := List.mem_map_of_mem (f := (·.2.sideData)) (List.mem_of_mem_take hx)
  rw [hside] at hx
  simpa using hx

theorem allowed_put_get (sideData : List (Nat × List Byte)) :
    Each CacheAllowed cacheStep (some (CacheLog.init threeStreams fun _ => 2))
      [.put (packetOf 0 0 sideData), .get] := by
  refine ⟨fun v s hv _ hfull => ?_, trivial, trivial⟩
  cases hv
  exact absurd (show (0 : Int) = 2 from hfull) (by decide)

/-- The side data of a packet is lost. -/
theorem not_inOrder_sideData :
    Each CacheAllowed cacheStep (some (CacheLog.init threeStreams fun _ => 2))
        [.put (packetOf 0 0 [(0, [7])]), .get] ∧
      ∃ w, (run cacheStep (some (CacheLog.init threeStreams fun _ => 2))
        [.put (packetOf 0 0 [(0, [7])]), .get]).1 = some w ∧ ¬ InOrder w := by
  refine ⟨allowed_put_get _, _, rfl, ?_⟩
  rintro ⟨h, -⟩
  revert h
  decide

end VendorAmlogic.Player
