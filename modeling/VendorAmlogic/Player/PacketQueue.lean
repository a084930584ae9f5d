import Mathlib.Tactic
import VendorAmlogic.Lib.Bytes
import VendorAmlogic.Lib.DList

/-!
# The packet queue of the player

`packet_queue_put_update`, `avpkt_cache_queue_get` and `packet_queue_flush` of
`amplayer/player/player_ffmpeg_cache.c`. A queue is a doubly linked list of
packets, with a cursor: what is before it has been read and is kept for seeks.
No result is an access through `NULL`. What only serves the estimate of the
play time (`cache_pts`, `frame_dur_pts`, the first key frame) is left out, and
so is the memory use.
-/

namespace VendorAmlogic.Player

open VendorAmlogic.Lib

/-! ## Packets -/

/-- `AV_NOPTS_VALUE`. -/
def noPts : Int := -2 ^ 63

structure AvPacket where
  pts : Int
  dts : Int
  pos : Int
  duration : Int
  convergenceDuration : Int
  flags : Nat
  streamIndex : Int
  data : List Byte
  sideData : List (Nat × List Byte)
  deriving DecidableEq

def AvPacket.size (p : AvPacket) : Nat := p.data.length

/-- `AV_PKT_FLAG_KEY`. -/
def AvPacket.key (p : AvPacket) : Bool := p.flags.testBit 0

/-- Which allocation of a put fails: the node, the data of the packet, the array of its side
data, or the data of one item of it. -/
inductive Alloc where
  | ok
  | nodeFails
  | dataFails
  | sideDataFails
  | itemFails (i : Nat)
  deriving DecidableEq

/-- What `cache_av_new_packet` makes of a packet: `side_data_elems` stays 0. -/
def AvPacket.copy (src : AvPacket) : AvPacket := { src with sideData := [] }

/-- `cache_av_new_packet`, with the copy if it makes one. The data of an item of the side data is
not checked: bytes that are copied to where there is none go to `NULL`. -/
def cacheAvNewPacket (src : AvPacket) (mem : Alloc) : Option (Option AvPacket) :=
  match mem with
  | .ok | .nodeFails => some (some src.copy)
  | .dataFails => some none
  | .sideDataFails => if src.sideData.length > 0 then some none else some (some src.copy)
  | .itemFails i =>
    match src.sideData[i]? with
    | some (_, _ :: _) => none
    | _ => some (some src.copy)

/-- No allocation that the packet needs fails; an item without bytes needs none. -/
def Alloc.Succeeds (mem : Alloc) (pkt : AvPacket) : Prop :=
  match mem with
  | .ok => True
  | .nodeFails | .dataFails => False
  | .sideDataFails => pkt.sideData = []
  | .itemFails i => ∀ d ∈ pkt.sideData[i]?, d.2 = []

theorem cacheAvNewPacket_of_succeeds {mem : Alloc} {pkt : AvPacket} (h : mem.Succeeds pkt) :
    cacheAvNewPacket pkt mem = some (some pkt.copy) := by
  cases mem with
  | ok => rfl
  | nodeFails => rfl
  | dataFails => cases h
  | sideDataFails =>
    have h : pkt.sideData = [] := h
    simp [cacheAvNewPacket, h]
  | itemFails i =>
    unfold cacheAvNewPacket
    dsimp only
    split
    · rename_i hd
      exact absurd (h _ hd) (List.cons_ne_nil _ _)
    · rfl

/-- The fields of `MyAVPacketList` that do not change. -/
structure Entry where
  pkt : AvPacket
  frameId : Int
  pts : Int

/-- A queue with its nodes; `brk` is where the next one is allocated. -/
structure PacketQueue where
  firstPkt : Option Nat
  lastPkt : Option Nat
  curPkt : Option Nat
  next : Nat → Option Nat
  priv : Nat → Option Nat
  entry : Nat → Entry
  used : Nat → Bool
  brk : Nat
  streamIndex : Int
  nbPackets : Int
  backwardsize : Int
  forwardsize : Int
  maxPackets : Int
  headValidPts : Int
  tailValidPts : Int
  pts1 : Int
  pts2 : Int
  lastPts2 : Int
  framesIn : Int
  trustKeyframe : Bool
  framesForSeekBackward : Int
  framesForSeekForward : Int

namespace PacketQueue

def frameId (q : PacketQueue) (a : Nat) : Int := (q.entry a).frameId
def pkt (q : PacketQueue) (a : Nat) : AvPacket := (q.entry a).pkt
def pts (q : PacketQueue) (a : Nat) : Int := (q.entry a).pts

/-! ## Operations -/

def noEntry : Entry := ⟨⟨0, 0, 0, 0, 0, 0, 0, [], []⟩, 0, 0⟩

/-- `packet_queue_init`. -/
def init (streamIndex maxPackets : Int) : PacketQueue where
  firstPkt := none
  lastPkt := none
  curPkt := none
  next := fun _ => none
  priv := fun _ => none
  entry := fun _ => noEntry
  used := fun _ => false
  brk := 0
  streamIndex := streamIndex
  nbPackets := 0
  backwardsize := 0
  forwardsize := 0
  maxPackets := maxPackets
  headValidPts := -1
  tailValidPts := -1
  pts1 := -1
  pts2 := -1
  lastPts2 := -1
  framesIn := 0
  trustKeyframe := true
  framesForSeekBackward := 0
  framesForSeekForward := 0

/-- `packet_queue_flush`. -/
def flush (q : PacketQueue) : PacketQueue :=
  { q with
    firstPkt := none
    curPkt := none
    lastPkt := none
    nbPackets := 0
    backwardsize := 0
    forwardsize := 0
    headValidPts := -1
    tailValidPts := -1
    pts1 := -1
    pts2 := -1
    lastPts2 := -1
    framesIn := 0
    trustKeyframe := true
    framesForSeekForward := 0
    framesForSeekBackward := 0 }

/-- The search for `head_valid_pts`. -/
def headPts (q : PacketQueue) (start : Option Nat) : Option (Int × Option Nat) :=
  forNext q.next
    (fun h a => if (q.pkt a).pts ≠ noPts then ((q.pkt a).pts, false) else (h, true))
    q.brk start q.headValidPts

/-- The first packet `p` goes, and `f` is the first one. -/
def dropFirst (q : PacketQueue) (p f : Nat) (head : Int) : PacketQueue :=
  { q with
    firstPkt := some f
    priv := Function.update (Function.update q.priv f none) p none
    backwardsize := q.backwardsize - (q.pkt p).size
    framesForSeekBackward := q.framesForSeekBackward - 1
    headValidPts := head }

/-- The full queue loses its first packet; `nb_packets` stays. -/
def evict (q : PacketQueue) : Option PacketQueue := do
  let p ← q.firstPkt
  let f ← q.next p
  let r ← q.headPts (some f)
  some (q.dropFirst p f r.1)

/-- `pts1`, `pts2` and whether the pts of key frames are trusted. -/
def updateTrust (q : PacketQueue) (pkt : AvPacket) : PacketQueue :=
  if pkt.pts ≠ noPts then
    if q.framesIn ≤ 60 ∨ q.trustKeyframe = false ∨ pkt.key then
      let q :=
        if q.pts1 = -1 then { q with pts1 := pkt.pts, pts2 := pkt.pts }
        else { q with pts1 := q.pts2, pts2 := pkt.pts, lastPts2 := pkt.pts }
      if q.trustKeyframe ∧ q.pts2 - q.pts1 ≥ 2 * 90000 then { q with trustKeyframe := false } else q
    else if q.framesIn ≥ 61 ∧ q.pts2 = q.lastPts2 ∧ q.trustKeyframe then
      { q with trustKeyframe := false }
    else q
  else q

/-- The new node behind the last one; the cursor goes to it when all before have been read. -/
def link (q : PacketQueue) (e : Entry) : PacketQueue :=
  let a := q.brk
  let node := { q with
    brk := a + 1
    entry := Function.update q.entry a e
    used := Function.update q.used a false
    lastPkt := some a }
  match q.lastPkt with
  | none =>
    { node with
      next := Function.update q.next a none
      priv := Function.update q.priv a none
      firstPkt := some a
      curPkt := some a }
  | some l =>
    { node with
      next := Function.update (Function.update q.next l (some a)) a none
      priv := Function.update q.priv a (some l)
      curPkt := if q.curPkt = some l ∧ q.used l then some a else q.curPkt }

def append (q : PacketQueue) (readFrames : Int) (pkt : AvPacket) : PacketQueue :=
  let e : Entry := ⟨pkt, readFrames + 1, if pkt.pts = noPts then pkt.dts else pkt.pts⟩
  let q := (q.updateTrust pkt).link e
  { q with
    nbPackets := if q.nbPackets < q.maxPackets then q.nbPackets + 1 else q.nbPackets
    headValidPts := if q.headValidPts = -1 ∧ pkt.pts ≠ noPts then pkt.pts else q.headValidPts
    framesIn := q.framesIn + 1
    forwardsize := q.forwardsize + pkt.size
    framesForSeekForward := q.framesForSeekForward + 1
    tailValidPts := if pkt.pts ≠ noPts then pkt.pts else q.tailValidPts }

/-- `packet_queue_put_update`; `ready` is that the state of the cache is 2. -/
def putUpdate (q : PacketQueue) (ready : Bool) (readFrames : Int) (pkt : AvPacket) (mem : Alloc) :
    Option (PacketQueue × Int) :=
  if ready = false then some (q, -2)
  else do
    let q ← if q.nbPackets = q.maxPackets then q.evict else some q
    match mem with
    | .nodeFails =>
      some ({ q with maxPackets := if q.nbPackets > 0 then q.nbPackets else q.maxPackets }, -1)
    | mem =>
      match ← cacheAvNewPacket pkt mem with
      | none => some (q, -1)
      | some copy => some (q.append readFrames copy, 0)

/-- `avpkt_cache_queue_get`, with the packet if it gives one. -/
def get (q : PacketQueue) : PacketQueue × Option AvPacket :=
  match q.curPkt with
  | none => (q, none)
  | some c =>
    if q.used c = false then
      ({ q with
          framesForSeekForward := q.framesForSeekForward - 1
          framesForSeekBackward := q.framesForSeekBackward + 1
          backwardsize := q.backwardsize + (q.pkt c).size
          forwardsize := q.forwardsize - (q.pkt c).size
          used := Function.update q.used c true
          curPkt := match q.next c with
            | some d => some d
            | none => some c },
        some (q.pkt c))
    else (q, none)

/-! ## Well-formed queues -/

/-- The size of these packets. -/
def bytesOf (q : PacketQueue) (as : List Nat) : Int := (as.map fun a => ((q.pkt a).size : Int)).sum

/-- The cursor is in the list, and what has been read is what is before it; or all has been
read and the cursor is the last one. -/
def Cursor (q : PacketQueue) (as : List Nat) : Prop :=
  match q.curPkt with
  | none => as = []
  | some c =>
    c ∈ as ∧
      ((∀ a ∈ as, q.used a = true ↔ q.frameId a < q.frameId c) ∨
        ((∀ a ∈ as, q.used a = true) ∧ q.lastPkt = some c))

/-- The packets of the queue are `as`, but for their number. -/
structure Holds (q : PacketQueue) (as : List Nat) : Prop where
  links : DList q.next q.priv q.firstPkt q.lastPkt as
  ids : as.Pairwise fun a b => q.frameId a < q.frameId b
  cursor : q.Cursor as
  backward : q.framesForSeekBackward = (as.filter (q.used ·)).length
  forward : q.framesForSeekForward = (as.filter (!q.used ·)).length
  backwardBytes : q.backwardsize = q.bytesOf (as.filter (q.used ·))
  forwardBytes : q.forwardsize = q.bytesOf (as.filter (!q.used ·))

def WellFormed (q : PacketQueue) : Prop := ∃ as : List Nat, q.Holds as ∧ q.nbPackets = as.length

/-! ## Sums over flagged packets -/

section
variable {w : Nat → Int} {f : Nat → Bool} {as : List Nat} {c : Nat}

theorem sum_filter_not (w : Nat → Int) (f : Nat → Bool) (as : List Nat) :
    ((as.filter (f ·)).map w).sum + ((as.filter (!f ·)).map w).sum = (as.map w).sum := by
  induction as with
  | nil => rfl
  | cons a as ih =>
    cases h : f a <;> simp [h] <;> omega

theorem sum_filter_update (hnd : as.Nodup) (hc : c ∈ as) (hf : f c = false) :
    ((as.filter (Function.update f c true ·)).map w).sum =
      ((as.filter (f ·)).map w).sum + w c := by
  induction as with
  | nil => cases hc
  | cons a as ih =>
    obtain ⟨ha, hnd⟩ := List.nodup_cons.mp hnd
    rcases List.mem_cons.mp hc with rfl | hc
    · have hrest : as.filter (Function.update f c true ·) = as.filter (f ·) := by
        apply List.filter_congr
        intro x hx
        rw [Function.update_of_ne]
        rintro rfl
        exact ha hx
      simp only [List.filter_cons, Function.update_self, hf, hrest]
      simp [Int.add_comm]
    · have hac : a ≠ c := fun h => ha (h ▸ hc)
      have := ih hnd hc
      cases h : f a <;> (simp [Function.update_of_ne hac, h, this]; try omega)

theorem length_eq_sum (l : List Nat) : (l.length : Int) = (l.map fun _ => (1 : Int)).sum := by
  simp

end

section
variable {q q' : PacketQueue} {as : List Nat} {a c : Nat}

theorem bytesOf_cons : q.bytesOf (a :: as) = (q.pkt a).size + q.bytesOf as := by
  rw [bytesOf, List.map_cons, List.sum_cons, bytesOf]

theorem bytesOf_congr (h : ∀ a ∈ as, q'.pkt a = q.pkt a) : q'.bytesOf as = q.bytesOf as := by
  unfold bytesOf
  congr 1
  apply List.map_congr_left
  intro a ha
  rw [h a ha]

/-- The counts of a queue from those of what has been read and the totals. -/
theorem holds_of_totals (links : DList q.next q.priv q.firstPkt q.lastPkt as)
    (ids : as.Pairwise fun a b => q.frameId a < q.frameId b) (cursor : q.Cursor as)
    (backward : q.framesForSeekBackward = (as.filter (q.used ·)).length)
    (total : q.framesForSeekBackward + q.framesForSeekForward = as.length)
    (backwardBytes : q.backwardsize = q.bytesOf (as.filter (q.used ·)))
    (totalBytes : q.backwardsize + q.forwardsize = q.bytesOf as) : q.Holds as := by
  refine ⟨links, ids, cursor, backward, ?_, backwardBytes, ?_⟩
  · have h := sum_filter_not (fun _ => 1) q.used as
    rw [← length_eq_sum, ← length_eq_sum, ← length_eq_sum] at h
    omega
  · have h := sum_filter_not (fun a => ((q.pkt a).size : Int)) q.used as
    unfold bytesOf at *
    omega

theorem Holds.total (h : q.Holds as) :
    q.framesForSeekBackward + q.framesForSeekForward = as.length := by
  have h1 := sum_filter_not (fun _ => 1) q.used as
  rw [← length_eq_sum, ← length_eq_sum, ← length_eq_sum] at h1
  rw [h.backward, h.forward]
  exact h1

theorem Holds.totalBytes (h : q.Holds as) : q.backwardsize + q.forwardsize = q.bytesOf as := by
  rw [h.backwardBytes, h.forwardBytes]
  exact sum_filter_not _ _ _

/-! ## Puts -/

/-- A queue with these packets, whose nodes and frame ids are not the next ones. -/
structure Inv (q : PacketQueue) (readFrames : Int) (as : List Nat) : Prop where
  holds : q.Holds as
  below : ∀ a ∈ as, a < q.brk
  read : ∀ a ∈ as, q.frameId a ≤ readFrames

theorem Holds.cur_mem (h : q.Holds as) (hc : q.curPkt = some c) :
    c ∈ as ∧ ((∀ a ∈ as, q.used a = true ↔ q.frameId a < q.frameId c) ∨
      ((∀ a ∈ as, q.used a = true) ∧ q.lastPkt = some c)) := by
  have := h.cursor
  unfold Cursor at this
  rw [hc] at this
  exact this

/-- What has been read starts with the first packet. -/
theorem Holds.first_used (h : q.Holds (a :: as)) (hb : 1 ≤ q.framesForSeekBackward) :
    q.used a = true := by
  obtain ⟨x, hx⟩ : ∃ x, x ∈ (a :: as).filter (q.used ·) := by
    apply List.exists_mem_of_length_pos
    have := h.backward
    omega
  obtain ⟨hx, hu⟩ := List.mem_filter.mp hx
  cases hc : q.curPkt with
  | none =>
    have := h.cursor
    unfold Cursor at this
    rw [hc] at this
    cases this
  | some c =>
    rcases (h.cur_mem hc).2 with h1 | h1
    · have hxc := (h1 x hx).mp hu
      apply (h1 a List.mem_cons_self).mpr
      rcases List.mem_cons.mp hx with rfl | hx
      · exact hxc
      · have := (List.pairwise_cons.mp h.ids).1 x hx
        omega
    · exact h1.1 a List.mem_cons_self

theorem Holds.dropFirst {f : Nat} (h : q.Holds (a :: f :: as)) (hu : q.used a = true) (head : Int) :
    (q.dropFirst a f head).Holds (f :: as) := by
  obtain ⟨hids, hids'⟩ := List.pairwise_cons.mp h.ids
  have ha : a ∉ f :: as := (List.nodup_cons.mp h.links.nodup).1
  apply holds_of_totals
  · have hl := h.links.tail
    refine ⟨hl.fwd, ?_, hl.nodup⟩
    refine hl.bwd.congr fun x hx => Function.update_of_ne ?_ _ _
    rintro rfl
    exact ha (List.mem_reverse.mp hx)
  · exact hids'
  · cases hc : q.curPkt with
    | none =>
      have := h.cursor
      unfold Cursor at this
      rw [hc] at this
      cases this
    | some c =>
      obtain ⟨hm, hcur⟩ := h.cur_mem hc
      have hca : c ≠ a := by
        rintro rfl
        rcases hcur with hcur | hcur
        · have := (hcur c List.mem_cons_self).mp hu
          omega
        · have hlast := h.links.last_eq
          rw [hcur.2, List.getLast?_cons_cons] at hlast
          exact ha (List.mem_of_getLast? hlast.symm)
      unfold Cursor
      rw [show (q.dropFirst a f head).curPkt = some c from hc]
      refine ⟨(List.mem_cons.mp hm).resolve_left hca, ?_⟩
      rcases hcur with hcur | hcur
      · exact .inl fun x hx => hcur x (List.mem_cons_of_mem _ hx)
      · exact .inr ⟨fun x hx => hcur.1 x (List.mem_cons_of_mem _ hx), hcur.2⟩
  · have := h.backward
    rw [List.filter_cons_of_pos (by simpa using hu), List.length_cons] at this
    simp only [PacketQueue.dropFirst]
    omega
  · have := h.total
    rw [List.length_cons] at this
    simp only [PacketQueue.dropFirst]
    omega
  · have := h.backwardBytes
    rw [List.filter_cons_of_pos (by simpa using hu), bytesOf_cons] at this
    change q.backwardsize - (q.pkt a).size = q.bytesOf ((f :: as).filter (q.used ·))
    omega
  · have := h.totalBytes
    rw [bytesOf_cons] at this
    change q.backwardsize - (q.pkt a).size + q.forwardsize = q.bytesOf _
    omega

theorem headPts_isSome (h : Chain q.next (some a) as) (hb : as.length ≤ q.brk) :
    ∃ r, q.headPts (some a) = some r :=
  ⟨_, h.forNext_eq hb⟩

theorem Inv.length_le {rf : Int} (h : q.Inv rf as) : as.length ≤ q.brk := by
  have hsub : as ⊆ List.range q.brk := fun a ha => List.mem_range.mpr (h.below a ha)
  simpa using (List.subperm_of_subset h.holds.links.nodup hsub).length_le

/-- A full queue with two packets, one of which has been read, loses the first one. -/
theorem Inv.evict {rf : Int} (h : q.Inv rf as) (h2 : 2 ≤ as.length)
    (hb : 1 ≤ q.framesForSeekBackward) :
    ∃ p f bs head, as = p :: f :: bs ∧ q.evict = some (q.dropFirst p f head) ∧ q.used p = true ∧
      (q.dropFirst p f head).Inv rf (f :: bs) := by
  match as, h, h2 with
  | p :: f :: as, h, _ =>
    have hl := h.holds.links
    have hfwd : Chain q.next (some f) (f :: as) := Chain.drop (show Chain _ _ ([p] ++ f :: as) from hl.fwd)
    have hle := h.length_le
    rw [List.length_cons] at hle
    obtain ⟨r, hr⟩ := headPts_isSome hfwd (by omega)
    have hu := h.holds.first_used hb
    refine ⟨p, f, as, r.1, rfl, ?_, hu, h.holds.dropFirst hu _, ?_, ?_⟩
    · unfold PacketQueue.evict
      rw [hl.fwd.1, Option.bind_eq_bind, Option.bind_some, hl.fwd.2.1, Option.bind_eq_bind,
        Option.bind_some, hr]
      rfl
    · exact fun a ha => h.below a (List.mem_cons_of_mem _ ha)
    · exact fun a ha => h.read a (List.mem_cons_of_mem _ ha)

theorem updateTrust_eq (q : PacketQueue) (pkt : AvPacket) :
    ∃ x y z t, q.updateTrust pkt =
      { q with pts1 := x, pts2 := y, lastPts2 := z, trustKeyframe := t } := by
  unfold updateTrust
  dsimp only
  repeat' split
  all_goals exact ⟨_, _, _, _, rfl⟩

section
variable {e : Entry}

theorem link_brk : (q.link e).brk = q.brk + 1 := by
  unfold PacketQueue.link
  split <;> rfl

/-- A new node is not counted yet. -/
theorem link_counts :
    (q.link e).framesForSeekBackward = q.framesForSeekBackward ∧
      (q.link e).framesForSeekForward = q.framesForSeekForward ∧
      (q.link e).backwardsize = q.backwardsize ∧ (q.link e).forwardsize = q.forwardsize := by
  unfold PacketQueue.link
  split <;> exact ⟨rfl, rfl, rfl, rfl⟩

theorem link_entry : (q.link e).entry = Function.update q.entry q.brk e := by
  unfold PacketQueue.link
  split <;> rfl

theorem link_used : (q.link e).used = Function.update q.used q.brk false := by
  unfold PacketQueue.link
  split <;> rfl

theorem link_pkt_of_ne (h : a ≠ q.brk) : (q.link e).pkt a = q.pkt a := by
  unfold pkt
  rw [link_entry, Function.update_of_ne h]

theorem link_pkt_self : (q.link e).pkt q.brk = e.pkt := by
  unfold pkt
  rw [link_entry, Function.update_self]

theorem link_frameId_of_ne (h : a ≠ q.brk) : (q.link e).frameId a = q.frameId a := by
  unfold frameId
  rw [link_entry, Function.update_of_ne h]

theorem link_frameId_self : (q.link e).frameId q.brk = e.frameId := by
  unfold frameId
  rw [link_entry, Function.update_self]

theorem link_used_of_ne (h : a ≠ q.brk) : (q.link e).used a = q.used a := by
  rw [link_used, Function.update_of_ne h]

theorem link_used_self : (q.link e).used q.brk = false := by
  rw [link_used, Function.update_self]

end

/-- The cursor after a new node behind the last one. -/
theorem Inv.cursor_link {rf : Int} {e : Entry} {bs : List Nat} {l : Nat} (h : q.Inv rf (bs ++ [l]))
    (he : e.frameId = rf + 1) (hlast : q.lastPkt = some l) :
    (q.link e).Cursor (bs ++ [l] ++ [q.brk]) := by
  have hold : ∀ a ∈ bs ++ [l], a ≠ q.brk := by
    rintro a ha rfl
    exact Nat.lt_irrefl _ (h.below _ ha)
  have hid : ∀ a ∈ bs ++ [l], (q.link e).frameId a = q.frameId a := fun a ha =>
    link_frameId_of_ne (hold a ha)
  have hused : ∀ a ∈ bs ++ [l], (q.link e).used a = q.used a := fun a ha =>
    link_used_of_ne (hold a ha)
  have hid' : (q.link e).frameId q.brk = rf + 1 := by rw [link_frameId_self, he]
  have hused' : (q.link e).used q.brk = false := link_used_self
  have hcur : (q.link e).curPkt = if q.curPkt = some l ∧ q.used l then some q.brk else q.curPkt := by
    unfold PacketQueue.link
    rw [hlast]
  cases hc : q.curPkt with
  | none =>
    have := h.holds.cursor
    unfold Cursor at this
    rw [hc] at this
    exact absurd this (by simp)
  | some c =>
    obtain ⟨hm, hcase⟩ := h.holds.cur_mem hc
    have hmem : ∀ {x}, x ∈ bs ++ [l] → x ∈ bs ++ [l] ++ [q.brk] := List.mem_append_left _
    unfold Cursor
    rw [hcur, hc]
    rcases hcase with h1 | ⟨h1, h2⟩
    · have hnot : ¬ (some c = some l ∧ q.used l = true) := by
        rintro ⟨hcl, hu⟩
        cases hcl
        have := (h1 l hm).mp hu
        omega
      rw [if_neg hnot]
      refine ⟨hmem hm, .inl fun a ha => ?_⟩
      rcases List.mem_append.mp ha with ha | ha
      · rw [hused a ha, hid a ha, hid c hm]
        exact h1 a ha
      · obtain rfl := List.mem_singleton.mp ha
        rw [hused', hid', hid c hm]
        have := h.read c hm
        constructor
        · intro h0
          cases h0
        · omega
    · have hcl : c = l := Option.some.inj (h2.symm.trans hlast)
      subst hcl
      rw [if_pos ⟨rfl, h1 c hm⟩]
      refine ⟨List.mem_append_right _ List.mem_cons_self, .inl fun a ha => ?_⟩
      rcases List.mem_append.mp ha with ha | ha
      · rw [hused a ha, hid a ha, hid', h1 a ha]
        have := h.read a ha
        simp only [true_iff]
        omega
      · obtain rfl := List.mem_singleton.mp ha
        rw [hused']
        simp

/-- What a new node does to the list and the cursor. -/
theorem Inv.link {rf : Int} {e : Entry} (h : q.Inv rf as) (he : e.frameId = rf + 1) :
    DList (q.link e).next (q.link e).priv (q.link e).firstPkt (q.link e).lastPkt (as ++ [q.brk]) ∧
      (q.link e).Cursor (as ++ [q.brk]) := by
  have hfresh : q.brk ∉ as := fun hm => Nat.lt_irrefl _ (h.below _ hm)
  rcases List.eq_nil_or_concat as with rfl | ⟨bs, l, hbs⟩
  · have hlast : q.lastPkt = none := h.holds.links.last_eq
    unfold PacketQueue.link
    rw [hlast]
    refine ⟨DList.single, List.mem_cons_self, .inl fun a ha => ?_⟩
    rw [List.mem_singleton.mp ha]
    simp
  · rw [List.concat_eq_append] at hbs
    subst hbs
    have hlast : q.lastPkt = some l := by
      rw [h.holds.links.last_eq, List.getLast?_append_of_ne_nil] <;> simp
    refine ⟨?_, h.cursor_link he hlast⟩
    unfold PacketQueue.link
    rw [hlast, List.append_assoc]
    exact h.holds.links.append hfresh

theorem Inv.filter_link {rf : Int} {e : Entry} (h : q.Inv rf as) :
    (as ++ [q.brk]).filter ((q.link e).used ·) = as.filter (q.used ·) := by
  rw [List.filter_append, List.filter_cons_of_neg (by simp [link_used_self]), List.filter_nil,
    List.append_nil]
  apply List.filter_congr
  intro a ha
  exact link_used_of_ne (Nat.ne_of_lt (h.below a ha))

theorem Inv.bytesOf_link {rf : Int} {e : Entry} (h : q.Inv rf as) {l : List Nat} (hl : l ⊆ as) :
    (q.link e).bytesOf l = q.bytesOf l :=
  bytesOf_congr fun a ha => link_pkt_of_ne (Nat.ne_of_lt (h.below a (hl ha)))

theorem Inv.updateTrust {rf : Int} (pkt : AvPacket) (h : q.Inv rf as) :
    (q.updateTrust pkt).Inv rf as ∧ (q.updateTrust pkt).brk = q.brk := by
  obtain ⟨x, y, z, t, hq⟩ := updateTrust_eq q pkt
  rw [hq]
  have hh := h.holds
  exact ⟨⟨⟨hh.links, hh.ids, hh.cursor, hh.backward, hh.forward, hh.backwardBytes,
    hh.forwardBytes⟩, h.below, h.read⟩, rfl⟩

/-- A packet behind the others. -/
theorem Inv.append {rf : Int} {pkt : AvPacket} (h : q.Inv rf as) :
    (q.append rf pkt).Inv (rf + 1) (as ++ [q.brk]) := by
  obtain ⟨h, hbrk⟩ := h.updateTrust pkt
  rw [← hbrk]
  unfold PacketQueue.append
  generalize q.updateTrust pkt = q at h
  dsimp only
  generalize he : (⟨pkt, rf + 1, if pkt.pts = noPts then pkt.dts else pkt.pts⟩ : Entry) = e
  have hid : e.frameId = rf + 1 := by rw [← he]
  have hpkt : e.pkt = pkt := by rw [← he]
  obtain ⟨hlinks, hcursor⟩ := h.link hid
  obtain ⟨hc1, hc2, hc3, hc4⟩ := link_counts (q := q) (e := e)
  have hold : ∀ a ∈ as, (q.link e).frameId a = q.frameId a := fun a ha =>
    link_frameId_of_ne (Nat.ne_of_lt (h.below a ha))
  refine ⟨?_, ?_, ?_⟩
  · apply holds_of_totals
    · exact hlinks
    · apply List.pairwise_append.mpr
      refine ⟨?_, List.pairwise_singleton _ _, ?_⟩
      · apply h.holds.ids.imp_of_mem
        intro a b ha hb hab
        change (q.link e).frameId a < (q.link e).frameId b
        rwa [hold a ha, hold b hb]
      · intro a ha b hb
        obtain rfl := List.mem_singleton.mp hb
        change (q.link e).frameId a < (q.link e).frameId q.brk
        rw [hold a ha, link_frameId_self, hid]
        have := h.read a ha
        omega
    · exact hcursor
    · change (q.link e).framesForSeekBackward = ((as ++ [q.brk]).filter ((q.link e).used ·)).length
      rw [hc1, h.filter_link]
      exact h.holds.backward
    · change (q.link e).framesForSeekBackward + ((q.link e).framesForSeekForward + 1) = _
      rw [hc1, hc2, List.length_append, List.length_singleton]
      have := h.holds.total
      omega
    · change (q.link e).backwardsize =
        (q.link e).bytesOf ((as ++ [q.brk]).filter ((q.link e).used ·))
      rw [hc3, h.filter_link, h.bytesOf_link (List.filter_subset_self _)]
      exact h.holds.backwardBytes
    · change (q.link e).backwardsize + ((q.link e).forwardsize + pkt.size) =
        (q.link e).bytesOf (as ++ [q.brk])
      have hsum : (q.link e).bytesOf (as ++ [q.brk]) = q.bytesOf as + pkt.size := by
        rw [← h.bytesOf_link (e := e) (List.Subset.refl _), ← hpkt, ← link_pkt_self (q := q)]
        simp [bytesOf]
      have := h.holds.totalBytes
      rw [hc3, hc4, hsum]
      omega
  · intro a ha
    change a < (q.link e).brk
    rw [link_brk]
    rcases List.mem_append.mp ha with ha | ha
    · exact Nat.lt_succ_of_lt (h.below a ha)
    · rw [List.mem_singleton.mp ha]
      exact Nat.lt_succ_self _
  · intro a ha
    change (q.link e).frameId a ≤ rf + 1
    rcases List.mem_append.mp ha with ha | ha
    · have := h.read a ha
      rw [hold a ha]
      omega
    · obtain rfl := List.mem_singleton.mp ha
      have hlast : (q.link e).frameId q.brk = rf + 1 := by rw [link_frameId_self, hid]
      exact Int.le_of_eq hlast

/-! ## What is still to be read -/

/-- The frame ids and packets of the entries that have not been read. -/
def unread (q : PacketQueue) (as : List Nat) : List (Int × AvPacket) :=
  (as.filter (!q.used ·)).map fun a => (q.frameId a, q.pkt a)

/-- Around a cursor that has not been read. -/
theorem Holds.split (h : q.Holds as) (hc : q.curPkt = some c) (hu : q.used c = false) :
    ∃ xs ys, as = xs ++ c :: ys ∧ (∀ x ∈ xs, q.used x = true) ∧ (∀ y ∈ ys, q.used y = false) ∧
      (∀ y ∈ ys, q.frameId c < q.frameId y) ∧ (∀ x ∈ xs, q.frameId x < q.frameId c) ∧
      q.next c = ys.head? := by
  obtain ⟨hm, hcase⟩ := h.cur_mem hc
  obtain ⟨xs, ys, rfl⟩ := List.append_of_mem hm
  have h1 : ∀ a ∈ xs ++ c :: ys, q.used a = true ↔ q.frameId a < q.frameId c := by
    rcases hcase with h1 | ⟨h1, -⟩
    · exact h1
    · rw [h1 c hm] at hu
      cases hu
  obtain ⟨-, hids, hlt⟩ := List.pairwise_append.mp h.ids
  have hxs : ∀ x ∈ xs, q.frameId x < q.frameId c := fun x hx => hlt x hx c List.mem_cons_self
  have hys := (List.pairwise_cons.mp hids).1
  refine ⟨xs, ys, rfl, ?_, ?_, hys, hxs, ?_⟩
  · exact fun x hx => (h1 x (List.mem_append_left _ hx)).mpr (hxs x hx)
  · intro y hy
    have := mt (h1 y (List.mem_append_right _ (List.mem_cons_of_mem _ hy))).mp
      (by have := hys y hy; omega)
    simpa using this
  · exact h.links.from_next.2.head

/-- The packet at the cursor is the first one that has not been read. -/
theorem Holds.unread_cons (h : q.Holds as) (hc : q.curPkt = some c) (hu : q.used c = false) :
    ∃ l, q.unread as = (q.frameId c, q.pkt c) :: l ∧ q.get.1.unread as = l := by
  obtain ⟨xs, ys, rfl, hxs, hys, -⟩ := h.split hc hu
  have hnd := List.nodup_append.mp h.links.nodup
  have hfilter : ∀ u : Nat → Bool, (∀ x ∈ xs, u x = true) → (∀ y ∈ ys, u y = false) →
      (xs ++ c :: ys).filter (!u ·) = (if u c then [] else [c]) ++ ys := by
    intro u hx hy
    rw [List.filter_append, List.filter_eq_nil_iff.mpr (by simpa using hx), List.nil_append,
      List.filter_cons, List.filter_eq_self.mpr (by simpa using hy)]
    cases u c <;> rfl
  refine ⟨ys.map fun a => (q.frameId a, q.pkt a), ?_, ?_⟩
  · unfold unread
    rw [hfilter q.used hxs hys, hu]
    rfl
  · unfold PacketQueue.get unread
    rw [hc]
    simp only [hu, if_true]
    rw [hfilter]
    · rw [Function.update_self]
      rfl
    · intro x hx
      rw [Function.update_of_ne fun hxc => hnd.2.2 x hx c List.mem_cons_self hxc]
      exact hxs x hx
    · intro y hy
      rw [Function.update_of_ne]
      · exact hys y hy
      · rintro rfl
        exact (List.nodup_cons.mp hnd.2.1).1 hy

/-- The cursor when its packet is read. -/
theorem Holds.cursor_get (h : q.Holds as) (hc : q.curPkt = some c) (hu : q.used c = false) :
    q.get.1.Cursor as := by
  obtain ⟨xs, ys, rfl, hxs, hys, hltc, hclt, hnext⟩ := h.split hc hu
  have hused : ∀ a, q.get.1.used a = Function.update q.used c true a := by
    intro a
    unfold PacketQueue.get
    simp only [hc, hu, if_true]
  have hcur : q.get.1.curPkt = match ys.head? with | some d => some d | none => some c := by
    unfold PacketQueue.get
    simp only [hc, hu, if_true, hnext]
  have hid : q.get.1.frameId = q.frameId := by
    unfold PacketQueue.get
    simp only [hc, hu, if_true]
    rfl
  have hlast : q.get.1.lastPkt = q.lastPkt := by
    unfold PacketQueue.get
    simp only [hc, hu, if_true]
  have hread : ∀ x ∈ xs, q.get.1.used x = true := by
    intro x hx
    rw [hused]
    by_cases hxc : x = c
    · rw [hxc, Function.update_self]
    · rw [Function.update_of_ne hxc]
      exact hxs x hx
  have hreadc : q.get.1.used c = true := by rw [hused, Function.update_self]
  unfold Cursor
  rw [hcur, hid, hlast]
  cases ys with
  | nil =>
    refine ⟨List.mem_append_right _ List.mem_cons_self, .inr ⟨?_, ?_⟩⟩
    · intro a ha
      rcases List.mem_append.mp ha with ha | ha
      · exact hread a ha
      · rw [List.mem_singleton.mp ha]
        exact hreadc
    · rw [h.links.last_eq, List.getLast?_append_of_ne_nil] <;> simp
  | cons d ys =>
    have hd := hltc d List.mem_cons_self
    have hids : ∀ y ∈ ys, q.frameId d < q.frameId y := by
      have := (List.pairwise_append.mp h.ids).2.1
      exact (List.pairwise_cons.mp (List.pairwise_cons.mp this).2).1
    refine ⟨by simp, .inl fun a ha => ?_⟩
    rcases List.mem_append.mp ha with ha | ha
    · have := hclt a ha
      exact iff_of_true (hread a ha) (by omega)
    · rcases List.mem_cons.mp ha with rfl | ha
      · exact iff_of_true hreadc hd
      · have hac := hltc a ha
        have hne : a ≠ c := by
          rintro rfl
          omega
        rw [hused, Function.update_of_ne hne, hys a ha]
        refine iff_of_false (by simp) ?_
        rcases List.mem_cons.mp ha with rfl | ha
        · omega
        · have := hids a ha
          omega

theorem Holds.get (h : q.Holds as) : q.get.1.Holds as := by
  cases hc : q.curPkt with
  | none =>
    unfold PacketQueue.get
    rw [hc]
    exact h
  | some c =>
    cases hu : q.used c with
    | true =>
      unfold PacketQueue.get
      simp only [hc, hu, Bool.true_eq_false, if_false]
      exact h
    | false =>
      have hcur := h.cursor_get hc hu
      have hm := (h.cur_mem hc).1
      unfold PacketQueue.get at hcur ⊢
      simp only [hc, hu, if_true] at hcur ⊢
      apply holds_of_totals
      · exact h.links
      · exact h.ids
      · exact hcur
      · have := sum_filter_update (w := fun _ => 1) h.links.nodup hm hu
        rw [← length_eq_sum, ← length_eq_sum] at this
        have hb := h.backward
        dsimp only
        omega
      · have := h.total
        dsimp only
        omega
      · have := sum_filter_update (w := fun a => ((q.pkt a).size : Int)) h.links.nodup hm hu
        have hb := h.backwardBytes
        change q.backwardsize + (q.pkt c).size = q.bytesOf _
        unfold bytesOf at hb ⊢
        rw [hb]
        exact this.symm
      · have := h.totalBytes
        change q.backwardsize + (q.pkt c).size + (q.forwardsize - (q.pkt c).size) = q.bytesOf as
        omega

theorem Inv.get {rf : Int} (h : q.Inv rf as) : q.get.1.Inv rf as := by
  refine ⟨h.holds.get, ?_, ?_⟩
  · intro a ha
    have := h.below a ha
    unfold PacketQueue.get
    split
    · exact this
    · split <;> exact this
  · intro a ha
    have := h.read a ha
    unfold PacketQueue.get
    split
    · exact this
    · split <;> exact this

theorem Inv.mono {rf rf' : Int} (h : q.Inv rf as) (hle : rf ≤ rf') : q.Inv rf' as :=
  ⟨h.holds, h.below, fun a ha => Int.le_trans (h.read a ha) hle⟩

/-! ## Puts into a queue that has room, or a packet to lose -/

/-- The packets are `as`, and there are `nb_packets` of them. -/
structure Kept (q : PacketQueue) (readFrames : Int) (as : List Nat) : Prop where
  inv : q.Inv readFrames as
  count : q.nbPackets = as.length
  room : q.nbPackets ≤ q.maxPackets

/-- An empty queue. -/
theorem kept_empty (rf : Int) (hd : DList q.next q.priv q.firstPkt q.lastPkt [])
    (hc : q.curPkt = none) (hnb : q.nbPackets = 0) (hmax : 0 ≤ q.maxPackets)
    (hframes : q.framesForSeekBackward = 0 ∧ q.framesForSeekForward = 0)
    (hbytes : q.backwardsize = 0 ∧ q.forwardsize = 0) : q.Kept rf [] := by
  refine ⟨⟨⟨hd, List.Pairwise.nil, ?_, hframes.1, hframes.2, hbytes.1, hbytes.2⟩, ?_, ?_⟩, hnb, ?_⟩
  · unfold Cursor
    rw [hc]
  · exact fun _ ha => absurd ha List.not_mem_nil
  · exact fun _ ha => absurd ha List.not_mem_nil
  · rw [hnb]
    exact hmax

theorem init_kept (idx rf : Int) {max : Int} (h : 0 ≤ max) : (init idx max).Kept rf [] :=
  kept_empty rf DList.empty rfl rfl h ⟨rfl, rfl⟩ ⟨rfl, rfl⟩

theorem append_nb (q : PacketQueue) (rf : Int) (pkt : AvPacket) :
    (q.append rf pkt).nbPackets =
        (if q.nbPackets < q.maxPackets then q.nbPackets + 1 else q.nbPackets) ∧
      (q.append rf pkt).maxPackets = q.maxPackets := by
  obtain ⟨x, y, z, t, hq⟩ := updateTrust_eq q pkt
  unfold PacketQueue.append
  rw [hq]
  unfold PacketQueue.link
  dsimp only
  split <;> exact ⟨rfl, rfl⟩

/-- The entries that have been read. -/
def haveRead (q : PacketQueue) (as : List Nat) : List (Int × AvPacket) :=
  (as.filter (q.used ·)).map fun a => (q.frameId a, q.pkt a)

theorem append_entry (q : PacketQueue) (rf : Int) (pkt : AvPacket) :
    ∃ e : Entry, e.frameId = rf + 1 ∧ e.pkt = pkt ∧
      (q.append rf pkt).entry = Function.update q.entry q.brk e ∧
      (q.append rf pkt).used = Function.update q.used q.brk false := by
  obtain ⟨x, y, z, t, hq⟩ := updateTrust_eq q pkt
  unfold PacketQueue.append
  rw [hq]
  exact ⟨_, rfl, rfl, link_entry, link_used⟩

theorem Inv.lists_append {rf : Int} (h : q.Inv rf as) (pkt : AvPacket) :
    (q.append rf pkt).unread (as ++ [q.brk]) = q.unread as ++ [(rf + 1, pkt)] ∧
      (q.append rf pkt).haveRead (as ++ [q.brk]) = q.haveRead as := by
  obtain ⟨e, he1, he2, hentry, hused⟩ := append_entry q rf pkt
  have hne : ∀ a ∈ as, a ≠ q.brk := fun a ha => Nat.ne_of_lt (h.below a ha)
  have hmap : ∀ l : List Nat, l ⊆ as →
      l.map (fun a => ((q.append rf pkt).frameId a, (q.append rf pkt).pkt a)) =
        l.map fun a => (q.frameId a, q.pkt a) := by
    intro l hl
    apply List.map_congr_left
    intro a ha
    unfold frameId PacketQueue.pkt
    rw [hentry, Function.update_of_ne (hne a (hl ha))]
  have hfilter : ∀ f : Bool → Bool, as.filter (fun a => f ((q.append rf pkt).used a)) =
      as.filter fun a => f (q.used a) := by
    intro f
    apply List.filter_congr
    intro a ha
    rw [hused, Function.update_of_ne (hne a ha)]
  have hnew : (q.append rf pkt).used q.brk = false := by rw [hused, Function.update_self]
  constructor
  · unfold unread
    rw [List.filter_append, hfilter (!·), List.map_append, hmap _ (List.filter_subset_self _)]
    congr 1
    rw [List.filter_cons_of_pos (by simp [hnew])]
    simp [frameId, PacketQueue.pkt, hentry, he1, he2]
  · unfold haveRead
    rw [List.filter_append, List.map_append, show as.filter ((q.append rf pkt).used ·) = _ from hfilter id,
      hmap _ (List.filter_subset_self _)]
    simp [hnew]

/-- A full queue may lose its first packet only when it has been read. -/
def CanLose (q : PacketQueue) : Prop :=
  q.nbPackets = q.maxPackets → 1 ≤ q.framesForSeekBackward ∧ 2 ≤ q.nbPackets

theorem Kept.evict {rf : Int} (h : q.Kept rf as) (hfull : q.nbPackets = q.maxPackets)
    (hl : q.CanLose) :
    ∃ q' as', q.evict = some q' ∧ q'.Inv rf as' ∧ (as'.length : Int) + 1 = q.nbPackets ∧
      q'.nbPackets = q.nbPackets ∧ q'.maxPackets = q.maxPackets ∧
      q'.unread as' = q.unread as ∧ q'.haveRead as' ⊆ q.haveRead as := by
  obtain ⟨hb, h2⟩ := hl hfull
  have hc := h.count
  obtain ⟨p, f, bs, head, rfl, he, hu, hi⟩ := h.inv.evict (by omega) hb
  refine ⟨_, f :: bs, he, hi, ?_, rfl, rfl, ?_, ?_⟩
  · rw [hc, List.length_cons (a := p)]
    rfl
  · change q.unread (f :: bs) = q.unread (p :: f :: bs)
    unfold unread
    rw [List.filter_cons_of_neg (a := p) (by simpa using hu)]
  · change q.haveRead (f :: bs) ⊆ q.haveRead (p :: f :: bs)
    unfold haveRead
    rw [List.filter_cons_of_pos (a := p) (by simpa using hu)]
    exact List.subset_cons_self _ _

/-- A put with memory for the packet. -/
theorem Kept.put {rf : Int} (h : q.Kept rf as) (hl : q.CanLose) (pkt : AvPacket) :
    ∃ q' as', q.putUpdate true rf pkt .ok = some (q', 0) ∧ q'.Kept (rf + 1) as' ∧
      q'.maxPackets = q.maxPackets ∧
      q'.unread as' = q.unread as ++ [(rf + 1, pkt.copy)] ∧
      q'.haveRead as' ⊆ q.haveRead as := by
  unfold putUpdate
  simp only [Bool.true_eq_false, if_false]
  by_cases hfull : q.nbPackets = q.maxPackets
  · obtain ⟨q1, as1, he, hi, hlen, hnb, hmax, hun, hre⟩ := h.evict hfull hl
    obtain ⟨hnb', hmax'⟩ := append_nb q1 rf (pkt.copy)
    obtain ⟨hun', hre'⟩ := hi.lists_append (pkt.copy)
    rw [if_neg (by omega)] at hnb'
    rw [if_pos hfull, he]
    refine ⟨_, as1 ++ [q1.brk], rfl, ⟨hi.append, ?_, ?_⟩, ?_, ?_, ?_⟩
    · rw [hnb', List.length_append, List.length_singleton]
      omega
    · omega
    · omega
    · rw [hun', hun]
    · rw [hre']
      exact hre
  · obtain ⟨hnb', hmax'⟩ := append_nb q rf (pkt.copy)
    obtain ⟨hun', hre'⟩ := h.inv.lists_append (pkt.copy)
    have hroom := h.room
    have hc := h.count
    rw [if_pos (by omega)] at hnb'
    rw [if_neg hfull]
    refine ⟨_, as ++ [q.brk], rfl, ⟨h.inv.append, ?_, ?_⟩, hmax', hun', ?_⟩
    · rw [hnb', List.length_append, List.length_singleton]
      omega
    · omega
    · rw [hre']
      exact List.Subset.refl _

theorem Kept.get {rf : Int} (h : q.Kept rf as) : q.get.1.Kept rf as := by
  have hsame : q.get.1.nbPackets = q.nbPackets ∧ q.get.1.maxPackets = q.maxPackets := by
    unfold PacketQueue.get
    split
    · exact ⟨rfl, rfl⟩
    · split <;> exact ⟨rfl, rfl⟩
  refine ⟨h.inv.get, ?_, ?_⟩
  · rw [hsame.1]
    exact h.count
  · rw [hsame.1, hsame.2]
    exact h.room

end

end PacketQueue

end VendorAmlogic.Player
