import VendorAmlogic.Hls.Session

/-!
# Live streams: segments in sequence

A live stream is a list of URLs without an end, and a playlist shows a window
of it. Refreshes replace the playlist between the downloads, with windows that
do not move backwards. Where the window has left the position of the session
behind, `_download_next_segment` looks for the URL of the last segment, and
`get_node_by_url` takes every URL that contains it from its path on.
-/

namespace VendorAmlogic.Hls

open VendorAmlogic.Lib

/-- The playlist shows the `len` segments from the number `first` on. -/
structure Shows (url : Nat → List Byte) (p : M3UParser) (first len : Nat) : Prop where
  pos : 0 < len
  noEndlist : p.isComplete = false
  num : p.baseNodeNum = len
  nodes : p.head.reverse.map (fun n => (n.index, n.fileUrl)) =
    (List.range len).map fun i : Nat => ((i : Int), url (first + i))
  sequence : ∀ n ∈ p.head, n.index = 0 → n.mediaSequence = first

/-- A session, and the window that its playlist shows. -/
structure LiveState where
  session : Session
  first : Nat
  len : Nat

inductive LiveOp where
  | refresh (p : M3UParser) (first len : Nat)
  | download (env : DownloadEnv)

/-- The download that was started is the output of a step. -/
def liveStep (w : LiveState) : LiveOp → LiveState × Option Started
  | .refresh p first len =>
    (⟨{ w.session with playlist := some p }, first, len⟩, none)
  | .download env =>
    match downloadNextSegment env w.session with
    | some r => ({ w with session := r.1 }, r.2)
    | none => (w, none)

/-- Windows do not move backwards, and the fetches of the downloads succeed. -/
def LiveAllowed (url : Nat → List Byte) (w : LiveState) : LiveOp → Prop
  | .refresh p first len =>
    Shows url p first len ∧ w.first ≤ first ∧ w.first + w.len ≤ first + len
  | .download env =>
    env.segmentSwitch = 1 ∧ ∃ r, downloadNextSegment env w.session = some r ∧
      ∀ st, r.2 = some st → st.ending.ret = 0 ∧ seekRaised st.ending.events = false

/-- The numbers fit into 32 bits; and where the window has left the position behind, no URL in it
contains the last one from its path on. -/
def LiveCareful (url : Nat → List Byte) (w : LiveState) : LiveOp → Prop
  | .refresh _ first len => first + len < 2 ^ 31
  | .download _ => w.session.curSeqNum < w.first →
      ∀ last, w.session.lastSegmentUrl = some last →
        ∀ i < w.len, ¬ M3UParser.relativeUrl last <:+: url (w.first + i)

/-- The downloads are in sequence from the number `next` on: each one has the URL of its number,
and what it passes over is before the window. -/
def InSequence (url : Nat → List Byte) : Nat → List Started → Prop
  | _, [] => True
  | next, st :: log =>
    ∃ seq first : Nat, st.seq = seq ∧ st.first = first ∧ next ≤ seq ∧ st.node.fileUrl = url seq ∧
      (∀ m, next ≤ m → m < seq → m < first) ∧ InSequence url (seq + 1) log

section
variable {url : Nat → List Byte} {p : M3UParser} {first len : Nat}

/-! ## Windows -/

theorem Shows.length (h : Shows url p first len) : p.head.reverse.length = len := by
  have := congrArg List.length h.nodes
  simpa using this

/-- The node at a place of the window. -/
theorem Shows.get (h : Shows url p first len) {i : Nat} (hi : i < p.head.reverse.length) :
    p.head.reverse[i].index = i ∧ p.head.reverse[i].fileUrl = url (first + i) := by
  have hlen := h.length
  have hget := congrArg (fun l => l[i]?) h.nodes
  simp only [List.getElem?_map, List.getElem?_eq_getElem hi, Option.map_some,
    List.getElem?_range (show i < len by omega), Option.some_inj] at hget
  exact ⟨congrArg Prod.fst hget, congrArg Prod.snd hget⟩

theorem Shows.getNodeByIndex (h : Shows url p first len) {i : Nat} (hi : i < len) :
    ∃ n ∈ p.head, p.getNodeByIndex i = some n ∧ n.index = i ∧ n.fileUrl = url (first + i) := by
  have hi' : i < p.head.reverse.length := by rw [h.length]; exact hi
  have hnum : p.baseNodeNum = p.head.length := by
    rw [h.num, ← h.length, List.length_reverse]
  have hindexed : p.Indexed := ⟨hnum, fun j hj => (h.get hj).1⟩
  exact ⟨p.head.reverse[i], List.mem_reverse.mp (List.getElem_mem hi'),
    hindexed.getNodeByIndex hi', h.get hi'⟩

/-- A node of the window is known by its index. -/
theorem Shows.mem (h : Shows url p first len) {n : M3uBaseNode} (hn : n ∈ p.head) :
    ∃ i < len, n.index = i ∧ n.fileUrl = url (first + i) := by
  obtain ⟨i, hi, rfl⟩ := List.mem_iff_getElem.mp (List.mem_reverse.mpr hn)
  exact ⟨i, by rw [← h.length]; exact hi, h.get hi⟩

theorem Shows.index_inj (h : Shows url p first len) {n m : M3uBaseNode} (hn : n ∈ p.head)
    (hm : m ∈ p.head) (he : n.index = m.index) : n = m := by
  obtain ⟨i, hi, rfl⟩ := List.mem_iff_getElem.mp (List.mem_reverse.mpr hn)
  obtain ⟨j, hj, rfl⟩ := List.mem_iff_getElem.mp (List.mem_reverse.mpr hm)
  rw [(h.get hi).1, (h.get hj).1] at he
  have : i = j := by omega
  subst this
  rfl

/-- A node that is put back as it was. -/
theorem Shows.setNode (h : Shows url p first len) {n : M3uBaseNode} (hn : n ∈ p.head) :
    p.setNode n = p := by
  have hsame : p.head.map (fun m => if m.index = n.index then n else m) = p.head := by
    rw [List.map_congr_left (g := id), List.map_id]
    intro m hm
    split
    · rename_i he
      exact h.index_inj hn hm he.symm
    · rfl
  unfold M3UParser.setNode
  rw [hsame]

/-- The last node of the window is the first one that a search finds. -/
theorem Shows.getNodeByUrl (h : Shows url p first len) {last : List Byte}
    (hlast : last = url (first + (len - 1))) :
    ∃ n, p.getNodeByUrl (some last) = some n ∧ n.index = (len - 1 : Nat) := by
  have hpos := h.pos
  have hlen := h.length
  have hi : len - 1 < p.head.reverse.length := by omega
  obtain ⟨hindex, hurl⟩ := h.get hi
  cases hhead : p.head with
  | nil =>
    rw [hhead] at hlen
    cases hlen
    exact absurd hpos (Nat.lt_irrefl 0)
  | cons n head =>
    have hn : p.head.reverse[len - 1] = n := by
      have : p.head.reverse[len - 1]? = some n := by
        rw [hhead, List.reverse_cons] at hlen ⊢
        rw [List.length_append, List.length_singleton] at hlen
        rw [← hlen, Nat.add_sub_cancel, List.getElem?_concat_length]
      exact Option.some_inj.mp ((List.getElem?_eq_getElem hi).symm.trans this)
    rw [hn] at hindex hurl
    refine ⟨n, ?_, hindex⟩
    unfold M3UParser.getNodeByUrl
    rw [hhead]
    dsimp only
    rw [List.find?_cons_of_pos]
    apply strstr_isSome_iff.mpr
    rw [hurl, ← hlast]
    exact (M3UParser.relativeUrl_suffix last).isInfix

/-! ## Steps -/

/-- The session is at the number `next`, and the last segment was the one before. -/
structure LiveInv (url : Nat → List Byte) (next : Nat) (w : LiveState) : Prop where
  livemode : w.session.isLivemode = true
  liveMode : w.session.liveMode = false
  noSeek : w.session.seektimeUs < 0
  shown : ∃ p, w.session.playlist = some p ∧ Shows url p w.first w.len
  cur : w.session.curSeqNum = next
  fits : w.first + w.len < 2 ^ 31
  last : w.session.lastSegmentUrl = none ∨
    0 < next ∧ next ≤ w.first + w.len ∧ w.session.lastSegmentUrl = some (url (next - 1))

/-- The number that is next in the window. -/
theorem LiveInv.resync {next : Nat} {w : LiveState} (h : LiveInv url next w) {p : M3UParser}
    (hs : Shows url p w.first w.len)
    (hcare : w.session.curSeqNum < w.first → ∀ last, w.session.lastSegmentUrl = some last →
      ∀ i < w.len, ¬ M3UParser.relativeUrl last <:+: url (w.first + i)) :
    w.session.resync 1 p w.first = (max next w.first : Nat) := by
  have hcur := h.cur
  have hnum := hs.num
  unfold Session.resync
  split
  · rename_i hlt
    have hnone : w.session.behindLast p w.first = none := by
      unfold Session.behindLast M3UParser.getNodeByUrl
      cases hl : w.session.lastSegmentUrl with
      | none => rfl
      | some last =>
        rw [Option.map_eq_none_iff]
        apply List.find?_eq_none.mpr
        intro n hn
        obtain ⟨i, hi, -, hurl⟩ := hs.mem hn
        rw [strstr_isSome_iff, hurl]
        exact hcare hlt last hl i hi
    rw [hnone, Option.getD_none]
    omega
  · rename_i hge
    have hmax : (max next w.first : Nat) = next := by omega
    rw [hmax, ← hcur]
    split
    · rfl
    · split
      · rename_i hbeyond
        -- the window ends with the last segment, which is found first
        rcases h.last with hlast | ⟨hpos, hle, hlast⟩
        · rw [Session.behindLast, hlast]
          rfl
        · have hnext : next = w.first + w.len := by omega
          have hlen := hs.pos
          have hurl : url (next - 1) = url (w.first + (w.len - 1)) := by
            congr 1
            omega
          obtain ⟨n, hn, hindex⟩ := hs.getNodeByUrl hurl
          have hfits := h.fits
          rw [Session.behindLast, hlast, hn, Option.map_some, Option.getD_some, hindex,
            i32_eq_self (by omega) (by omega)]
          omega
      · rfl

/-- A download whose fetches succeed: of nothing, or of the number that is next in the window. -/
theorem LiveInv.download {next : Nat} {w : LiveState} {env : DownloadEnv} {s' : Session}
    {o : Option Started} (h : LiveInv url next w) (hsw : env.segmentSwitch = 1)
    (hcare : LiveCareful url w (.download env))
    (hd : downloadNextSegment env w.session = some (s', o))
    (hok : ∀ st, o = some st → st.ending.ret = 0 ∧ seekRaised st.ending.events = false) :
    o = none ∧ LiveInv url next ⟨s', w.first, w.len⟩ ∨
      ∃ st, o = some st ∧ st.seq = (max next w.first : Nat) ∧ st.first = w.first ∧
        st.node.fileUrl = url (max next w.first) ∧
        LiveInv url (max next w.first + 1) ⟨s', w.first, w.len⟩ := by
  obtain ⟨p, hp, hs⟩ := h.shown
  obtain ⟨node0, hmem0, hnode0, hindex0, -⟩ := hs.getNodeByIndex hs.pos
  have hfirst : node0.mediaSequence = w.first := hs.sequence node0 hmem0 hindex0
  have hfirst' : firstSeqNumber node0 = w.first := by
    unfold firstSeqNumber
    rw [hfirst, if_neg (by omega)]
  have hsync := h.resync hs hcare
  have hnum := hs.num
  have hnoseek := h.noSeek
  have hpos := hs.pos
  obtain ⟨m, hm, hcase⟩ : ∃ m, max next w.first = m ∧
      (m = next ∧ w.first ≤ next ∨ m = w.first ∧ next ≤ w.first) := ⟨_, rfl, by omega⟩
  rw [hm] at hsync ⊢
  have hcast : (m : Int) - w.first = (m - w.first : Nat) := by omega
  cases o with
  | none =>
    refine .inl ⟨rfl, ?_⟩
    unfold downloadNextSegment at hd
    simp only [hp, hsw, hfirst, hfirst', hsync, Option.bind_eq_bind, Option.bind_some,
      show p.getNodeByIndex 0 = some node0 from hnode0] at hd
    split at hd
    · rename_i hwait
      cases hd
      refine ⟨h.livemode, h.liveMode, h.noSeek, ⟨p, rfl, hs⟩, ?_, h.fits, h.last⟩
      dsimp only
      omega
    · rename_i hgo
      obtain ⟨n, -, hn, -⟩ := hs.getNodeByIndex (i := m - w.first) (by omega)
      have hnext : w.session.nextNode p w.first m = ((m : Int), w.session.seektimeUs, some n) := by
        unfold Session.nextNode
        rw [if_neg (by omega), hcast, hn]
      rw [hnext] at hd
      dsimp only at hd
      rw [if_neg (by omega)] at hd
      obtain ⟨e, -, hd⟩ := Option.bind_eq_some_iff.mp hd
      cases hd
  | some st =>
    refine .inr ⟨st, rfl, ?_⟩
    obtain ⟨p', node0', seektimeUs, hp', hnode0', hst, hnode, hfetch, rfl⟩ := started_cases hd
    obtain rfl : p = p' := Option.some_inj.mp (hp.symm.trans hp')
    obtain rfl : node0 = node0' := Option.some_inj.mp (hnode0.symm.trans hnode0')
    rw [hst, hfirst', hsw, hfirst, hsync] at hnode
    unfold Session.nextNode at hnode
    rw [if_neg (by omega)] at hnode
    obtain ⟨hseq, hrest⟩ := Prod.mk.inj hnode
    obtain ⟨hseek, hget⟩ := Prod.mk.inj hrest
    rw [hcast] at hget
    have hlt : m - w.first < w.len := by
      unfold M3UParser.getNodeByIndex at hget
      split at hget
      · cases hget
      · omega
    obtain ⟨n, hn, hget', -, hurl⟩ := hs.getNodeByIndex hlt
    obtain rfl : n = st.node := Option.some_inj.mp (hget'.symm.trans hget)
    have hurl : st.node.fileUrl = url m := by
      rw [hurl]
      congr 1
      omega
    obtain ⟨hret, hnoraise⟩ := hok st rfl
    have hvod : w.session.keepsNodes = false := by
      unfold Session.keepsNodes
      simp [h.livemode, h.liveMode]
    have hlive : w.session.fetchesLive p = true := by
      unfold Session.fetchesLive
      simp [hs.noEndlist, h.liveMode]
    rw [hvod] at hfetch
    have hgo := fetchRetry_goOn hfetch hret hnoraise
    have hsame := fetchRetry_live hfetch
    have hfits := h.fits
    refine ⟨hseq.symm, by rw [hst, hfirst'], hurl, h.livemode, h.liveMode, ?_, ⟨p, ?_, hs⟩, ?_,
      hfits, ?_⟩
    · rw [← hseek]
      exact hnoseek
    · dsimp only
      rw [hsame, hs.setNode hn]
    · dsimp only
      rw [hgo, if_pos rfl, ← hseq, i32_eq_self (by omega) (by omega)]
      rfl
    · refine .inr ⟨Nat.succ_pos _, ?_, ?_⟩
      · dsimp only
        omega
      · dsimp only
        rw [hlive, if_pos rfl, hurl, Nat.add_sub_cancel]

/-- The downloads of a run. -/
def downloads (w : LiveState) (ops : List LiveOp) : List Started :=
  (run liveStep w ops).2.reduceOption

theorem LiveInv.inSequence {next : Nat} {w : LiveState} {ops : List LiveOp}
    (h : LiveInv url next w)
    (hok : Each (fun w op => LiveAllowed url w op ∧ LiveCareful url w op) liveStep w ops) :
    InSequence url next (downloads w ops) := by
  induction ops generalizing next w with
  | nil => trivial
  | cons op ops ih =>
    obtain ⟨⟨hallowed, hcare⟩, hrest⟩ := hok
    cases op with
    | refresh p first len =>
      obtain ⟨hshows, hle, hend⟩ := hallowed
      refine ih (w := ⟨{ w.session with playlist := some p }, first, len⟩) ?_ hrest
      refine ⟨h.livemode, h.liveMode, h.noSeek, ⟨p, rfl, hshows⟩, h.cur, hcare, ?_⟩
      rcases h.last with hl | ⟨hpos, hl, hurl⟩
      · exact .inl hl
      · exact .inr ⟨hpos, Nat.le_trans hl hend, hurl⟩
    | download env =>
      obtain ⟨hsw, ⟨s', o⟩, hd, hokd⟩ := hallowed
      have hstep : liveStep w (.download env) = (⟨s', w.first, w.len⟩, o) := by
        simp only [liveStep, hd]
      unfold downloads
      rw [run_cons, hstep]
      rw [hstep] at hrest
      rcases h.download hsw hcare hd hokd with ⟨rfl, hinv⟩ | ⟨st, rfl, hseq, hfirst, hurl, hinv⟩
      · exact ih hinv hrest
      · refine ⟨max next w.first, w.first, hseq, hfirst, by omega, hurl, fun m hm hlt => ?_, ?_⟩
        · omega
        · exact ih hinv hrest

end

/-- A session that has fetched nothing. -/
def liveSession (p : M3UParser) (cur : Nat) : Session := ⟨some p, cur, none, true, false, -1, []⟩

/-- **Live segments come in sequence**: in every run of careful refreshes and downloads. -/
theorem inSequence_of_careful {url : Nat → List Byte} {p : M3UParser} {first len cur : Nat}
    {ops : List LiveOp} (hs : Shows url p first len) (hfits : first + len < 2 ^ 31)
    (hok : Each (fun w op => LiveAllowed url w op ∧ LiveCareful url w op) liveStep
      ⟨liveSession p cur, first, len⟩ ops) :
    InSequence url cur (downloads ⟨liveSession p cur, first, len⟩ ops) :=
  LiveInv.inSequence
    ⟨rfl, rfl, show (-1 : Int) < 0 by decide, ⟨p, rfl, hs⟩, rfl, hfits, .inl rfl⟩ hok

/-! ## Runs -/

/-- The playlist of a window. -/
def windowPlaylist (url : Nat → List Byte) (first len : Nat) : M3UParser where
  isVariantPlaylist := false
  isExtm3u := true
  isComplete := false
  isInitcheck := true
  targetDuration := 10
  baseNodeNum := len
  durationUs := 10000000 * len
  iframeNodeList := []
  head := ((List.range len).map fun i : Nat => { M3uBaseNode.zero with
    index := i
    fileUrl := url (first + i)
    startUs := 10000000 * i
    durationUs := 10000000
    mediaSequence := if i = 0 then first else 0 }).reverse
  mediaGroupHead := []

theorem windowPlaylist_shows (url : Nat → List Byte) (first : Nat) {len : Nat} (h : 0 < len) :
    Shows url (windowPlaylist url first len) first len := by
  refine ⟨h, rfl, rfl, ?_, fun n hn h0 => ?_⟩
  · simp only [windowPlaylist, List.reverse_reverse, List.map_map]
    rfl
  · simp only [windowPlaylist, List.mem_reverse, List.mem_map] at hn
    obtain ⟨i, -, rfl⟩ := hn
    exact if_pos (Int.ofNat_eq_zero.mp h0)

/-- URLs of which each one is longer than the one before. -/
def growingUrl (ext : List Byte) (k : Nat) : List Byte :=
  bytes "http://h/s" ++ List.replicate k 0x61 ++ ext

theorem growingUrl_injective (ext : List Byte) : Function.Injective (growingUrl ext) := by
  intro a b h
  have := congrArg List.length h
  simpa [growingUrl] using this

/-- A download of a segment of one byte. -/
def oneByteDownload : DownloadEnv where
  segmentSwitch := 1
  rangeType := 0
  openretry := 3
  server := fun _ => rangeServer [0]
  events := [.openOk, .read 1 false false]

/-- The window jumps over the segment that is next, and then goes on. -/
def jumpingWindow (url : Nat → List Byte) : List LiveOp :=
  [.download oneByteDownload, .refresh (windowPlaylist url 2 2) 2 2, .download oneByteDownload,
    .refresh (windowPlaylist url 2 3) 2 3, .download oneByteDownload]

def jumpingStart (url : Nat → List Byte) : LiveState :=
  ⟨liveSession (windowPlaylist url 0 1) 0, 0, 1⟩

/-- Whether the fetch of a download, if there is one, succeeds. -/
def fetchSucceeds (r : Option (Session × Option Started)) : Bool :=
  match r with
  | some (_, some st) => st.ending.ret = 0 && !seekRaised st.ending.events
  | some (_, none) => true
  | none => false

theorem liveAllowed_download {url : Nat → List Byte} {w : LiveState} {env : DownloadEnv}
    (hsw : env.segmentSwitch = 1)
    (h : fetchSucceeds (downloadNextSegment env w.session) = true) :
    LiveAllowed url w (.download env) := by
  refine ⟨hsw, ?_⟩
  cases hd : downloadNextSegment env w.session with
  | none =>
    rw [hd] at h
    cases h
  | some r =>
    refine ⟨r, rfl, fun st hst => ?_⟩
    obtain ⟨s', o⟩ := r
    dsimp only at hst
    rw [hd, hst] at h
    simpa [fetchSucceeds] using h

theorem inSequence_jumpingWindow :
    Each (fun w op => LiveAllowed (growingUrl (bytes ".ts")) w op ∧
        LiveCareful (growingUrl (bytes ".ts")) w op) liveStep
        (jumpingStart (growingUrl (bytes ".ts"))) (jumpingWindow (growingUrl (bytes ".ts"))) ∧
      InSequence (growingUrl (bytes ".ts")) 0
        (downloads (jumpingStart (growingUrl (bytes ".ts")))
          (jumpingWindow (growingUrl (bytes ".ts")))) := by
  have hok : Each (fun w op => LiveAllowed (growingUrl (bytes ".ts")) w op ∧
      LiveCareful (growingUrl (bytes ".ts")) w op) liveStep
      (jumpingStart (growingUrl (bytes ".ts"))) (jumpingWindow (growingUrl (bytes ".ts"))) := by
    refine ⟨⟨liveAllowed_download rfl (by decide +kernel), ?_⟩,
      ⟨⟨windowPlaylist_shows _ _ (by decide), by decide, by decide⟩, ?_⟩,
      ⟨liveAllowed_download rfl (by decide +kernel), ?_⟩,
      ⟨⟨windowPlaylist_shows _ _ (by decide), by decide, by decide⟩, ?_⟩,
      ⟨liveAllowed_download rfl (by decide +kernel), ?_⟩, trivial⟩
    · exact fun hlt => absurd hlt (by decide +kernel)
    · exact (by decide : 2 + 2 < 2 ^ 31)
    · rintro - last ⟨⟩
      decide +kernel
    · exact (by decide : 2 + 3 < 2 ^ 31)
    · exact fun hlt => absurd hlt (by decide +kernel)
  exact ⟨hok, inSequence_of_careful (windowPlaylist_shows _ _ (by decide)) (by decide) hok⟩

/-- The path of the first URL is in all others: after the jump of the window to the segments 2 and
3 the session is behind them, though it has fetched neither. -/
theorem not_inSequence_jumpingWindow :
    Function.Injective (growingUrl []) ∧
      Each (LiveAllowed (growingUrl [])) liveStep (jumpingStart (growingUrl []))
        (jumpingWindow (growingUrl [])) ∧
      ¬ InSequence (growingUrl []) 0
        (downloads (jumpingStart (growingUrl [])) (jumpingWindow (growingUrl []))) := by
  refine ⟨growingUrl_injective [], ?_, fun h => ?_⟩
  · exact ⟨liveAllowed_download rfl (by decide +kernel),
      ⟨windowPlaylist_shows _ _ (by decide), by decide, by decide⟩,
      liveAllowed_download rfl (by decide +kernel),
      ⟨windowPlaylist_shows _ _ (by decide), by decide, by decide⟩,
      liveAllowed_download rfl (by decide +kernel), trivial⟩
  · have hlog : (downloads (jumpingStart (growingUrl [])) (jumpingWindow (growingUrl []))).map
        (fun st => (st.first, st.seq)) = [(0, 0), (2, 4)] := by decide +kernel
    obtain ⟨st, l, hl, hst, hl'⟩ := List.map_eq_cons_iff.mp hlog
    obtain ⟨st', l', rfl, hst', -⟩ := List.map_eq_cons_iff.mp hl'
    rw [hl] at h
    obtain ⟨seq, -, hseq, -, -, -, -, seq', first, hseq', hfirst, -, -, hpass, -⟩ := h
    obtain ⟨-, h0⟩ := Prod.mk.inj hst
    obtain ⟨h2, h4⟩ := Prod.mk.inj hst'
    have := hpass 2 (by omega) (by omega)
    omega

end VendorAmlogic.Hls
