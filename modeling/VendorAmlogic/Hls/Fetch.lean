import VendorAmlogic.Hls.Playlist

/-!
# Downloads of a segment

`_fetch_segment_file` and the loop `fetch_retry` of `_download_next_segment`,
`hls_main/hls_m3ulivesession.c`, without fast-forward, without the fake leader
block and with one bandwidth. What the network, the clock and the settings
answer is a list of events, which the code takes one by one; there is no result
when it is at an end, or when an event does not fit. Waits change nothing and
are left out.
-/

namespace VendorAmlogic.Hls

open VendorAmlogic.Lib

/-! ## `_fetch_segment_file` -/

/-- `HLSERROR(EAGAIN)` and its kind. -/
def eagain : Int := -11
def eintr : Int := -4
def enetreset : Int := -102
def econnreset : Int := -104

def readOnceBlockSize : Nat := 1024 * 8

/-- The bytes of a request, from the first one to the last one if that is given. -/
structure Range where
  start : Int
  stop : Option Int
  deriving DecidableEq

/-- The header `Range` that is sent; `rangeType` is `media.hls.range_type`. -/
def rangeHeader (rangeType readOffset fileSize : Int) : Option Range :=
  if readOffset > 0 then
    let len := if rangeType = 0 then readOffset + fileSize - 1 else fileSize - 1
    some ⟨readOffset, if fileSize ≤ 0 then none else some len⟩
  else none

/-- A server: the size of a document that it reports, and its response to a request. -/
structure Server where
  fsize : Int
  respond : Option Range → List Byte

inductive FetchEvent where
  /-- `hls_http_open` fails with this code: `late` is after more than half of the duration of the
  segment, and `netDown` that there is no network. -/
  | openFails (errcode : Int) (late netDown : Bool)
  | openOk
  /-- The cache has no room. -/
  | cacheFull
  /-- The result of `hls_http_read`, where a positive one is how much there is at most;
  `firstNode` is that `codec_data_time` is -1, and `late` that no data came for long. -/
  | read (rlen : Int) (firstNode late : Bool)
  /-- A seek has set its flags, and they stay set. -/
  | seek

/-- The fields of the copy of the node that a download changes, and the bytes that were written
to the cache. -/
structure Progress where
  readOffset : Int
  fileSize : Int
  cache : List Byte

/-- The temporary buffer goes to the cache. -/
def Progress.write (p : Progress) (buf : List Byte) : Progress := { p with cache := p.cache ++ buf }

/-- The temporary buffer goes to the cache, and the offset goes on. -/
def Progress.flush (p : Progress) (buf : List Byte) : Progress :=
  { p with cache := p.cache ++ buf, readOffset := p.readOffset + buf.length }

/-- An open response: what is left of it, the temporary buffer and the number of bytes read. -/
structure Reading where
  rest : List Byte
  buf : List Byte
  readSize : Nat

/-- The size of the temporary buffer. -/
def bufTmpSize (fsize : Int) : Nat :=
  if fsize > 0 then min fsize.toNat (readOnceBlockSize * 8) else readOnceBlockSize * 8

/-- The end of a response. -/
def endOfResponse (fsize : Int) (p : Progress) (r : Reading) : Int × Progress :=
  let p := p.flush r.buf
  let p := if fsize < 1 then { p with fileSize := r.readSize } else p
  if p.readOffset < p.fileSize then (eagain, p) else (0, { p with readOffset := 0 })

/-- A read that fails, when the loop is left. -/
def readFails (isLive : Bool) (fsize : Int) (code : Int) (late : Bool) (p : Progress)
    (r : Reading) : Option (Int × Progress) :=
  if fsize > 0 ∧ r.readSize ≥ fsize then some (0, { p.write r.buf with readOffset := 0 })
  else if code = eagain then if late then some (code, p.flush r.buf) else none
  else if isLive ∨ code = eintr ∨ code = enetreset ∨ code = econnreset then
    let p := p.flush r.buf
    some (eagain, if code = eintr then { p with readOffset := 0 } else p)
  else some (code, p.flush r.buf)

/-- The loop over an open response. -/
def readLoop (isLive : Bool) (fsize : Int) :
    List FetchEvent → Progress → Reading → Option (Int × Progress × List FetchEvent)
  | .seek :: es, p, _ => some (0, p, .seek :: es)
  | .cacheFull :: es, p, r => readLoop isLive fsize es p r
  | .read rlen firstNode late :: es, p, r =>
    if rlen < 0 then
      match readFails isLive fsize rlen late p r with
      | some e => some (e.1, e.2, es)
      | none => readLoop isLive fsize es p r
    else
      let chunk := r.rest.take
        (min rlen.toNat (min (bufTmpSize fsize - r.buf.length) readOnceBlockSize))
      if chunk = [] then
        let e := endOfResponse fsize p r
        some (e.1, e.2, es)
      else
        let buf := r.buf ++ chunk
        let readSize := r.readSize + chunk.length
        let toCache : Prop := buf.length ≥ bufTmpSize fsize ∨ firstNode
        let p := if toCache then p.flush buf else p
        let buf := if toCache then [] else buf
        if fsize > 0 ∧ readSize ≥ fsize then some (0, { p.write buf with readOffset := 0 }, es)
        else readLoop isLive fsize es p ⟨r.rest.drop chunk.length, buf, readSize⟩
  | _, _, _ => none

/-- `_fetch_segment_file` for a segment with this offset and size. -/
def fetchSegmentFile (server : Server) (rangeType : Int) (isLive : Bool) :
    List FetchEvent → Progress → Option (Int × Progress × List FetchEvent)
  | .seek :: es, p => some (0, p, .seek :: es)
  | .openFails errcode late netDown :: es, p =>
    if errcode = -800 then fetchSegmentFile server rangeType isLive es p
    else if late then some (eagain, p, es)
    else if isLive ∧ netDown then some (eagain, p, es)
    else fetchSegmentFile server rangeType isLive es p
  | .openOk :: es, p =>
    let rest := server.respond (rangeHeader rangeType p.readOffset p.fileSize)
    let p := if server.fsize > 0 then { p with fileSize := server.fsize } else p
    readLoop isLive server.fsize es p ⟨rest, [], 0⟩
  | _, _ => none

/-! ## `fetch_retry` -/

/-- What the node of the playlist gets after a fetch. -/
def keepProgress (vod : Bool) (p : Progress) (node : M3uBaseNode) : M3uBaseNode :=
  if p.fileSize > 0 ∧ vod then
    { node with
      fileSize := p.fileSize
      readOffset :=
        if p.readOffset > 0 ∧ p.readOffset < p.fileSize then p.readOffset else node.readOffset }
  else node

def resetOffset (vod : Bool) (node : M3uBaseNode) : M3uBaseNode :=
  if vod then { node with readOffset := 0 } else node

/-- The end of a download: the last result of a fetch, and whether `cur_seq_num` goes on. -/
structure FetchEnd where
  ret : Int
  progress : Progress
  node : M3uBaseNode
  goOn : Bool
  events : List FetchEvent

/-- Whether the flags of a seek are set. -/
def seekRaised : List FetchEvent → Bool
  | .seek :: _ => true
  | _ => false

/-- What follows a fetch that is not made again. -/
def fetchDone (vod : Bool) (ret : Int) (p : Progress) (node : M3uBaseNode)
    (es : List FetchEvent) : FetchEnd :=
  if ret = 0 ∧ seekRaised es ∧ p.readOffset > 0 ∧ p.readOffset < p.fileSize then
    ⟨ret, p, resetOffset vod node, false, es⟩
  else if ret = 0 ∧ seekRaised es = false then ⟨ret, p, resetOffset vod node, true, es⟩
  else if ret < 0 ∧ seekRaised es = false then
    if ret = -1000 then ⟨ret, p, node, false, es⟩ else ⟨ret, p, resetOffset vod node, true, es⟩
  else ⟨ret, p, node, false, es⟩

/-- The loop `fetch_retry`, with `fetch_retry_cnt`; `vod` is that the nodes of the playlist stay. -/
def fetchRetry (server : Server) (rangeType : Int) (isLive vod : Bool) :
    Nat → List FetchEvent → Progress → M3uBaseNode → Option FetchEnd
  | 0, es, p, node =>
    some (if seekRaised es then ⟨-1, p, node, false, es⟩
      else fetchDone vod (-1) p (keepProgress vod p node) es)
  | cnt + 1, es, p, node =>
    if seekRaised es then some ⟨-1, p, node, false, es⟩
    else do
      let r ← fetchSegmentFile server rangeType isLive es p
      let node := keepProgress vod r.2.1 node
      if r.1 < 0 ∧ seekRaised r.2.2 = false ∧ cnt > 0 then
        fetchRetry server rangeType isLive vod cnt r.2.2 r.2.1 node
      else some (fetchDone vod r.1 r.2.1 node r.2.2)

theorem fetchDone_ret (vod : Bool) (ret : Int) (p : Progress) (node : M3uBaseNode)
    (es : List FetchEvent) :
    (fetchDone vod ret p node es).ret = ret ∧ (fetchDone vod ret p node es).progress = p ∧
      (fetchDone vod ret p node es).events = es := by
  unfold fetchDone
  repeat' split
  all_goals exact ⟨rfl, rfl, rfl⟩

/-- What the updates of a node keep is so after a download. -/
theorem fetchRetry_inv {P : M3uBaseNode → Prop} {server : Server} {rangeType : Int}
    {isLive vod : Bool} {cnt : Nat} {es : List FetchEvent} {p : Progress} {node : M3uBaseNode}
    {e : FetchEnd} (hkeep : ∀ p n, P n → P (keepProgress vod p n))
    (hreset : ∀ n, P n → P (resetOffset vod n))
    (h : fetchRetry server rangeType isLive vod cnt es p node = some e) (hnode : P node) :
    P e.node := by
  have hdone : ∀ ret p n es, P n → P (fetchDone vod ret p n es).node := by
    intro ret p n es hn
    unfold fetchDone
    repeat' split
    all_goals first
      | exact hn
      | exact hreset n hn
  induction cnt generalizing es p node with
  | zero =>
    simp only [fetchRetry, Option.some_inj] at h
    subst h
    split
    · exact hnode
    · exact hdone _ _ _ _ (hkeep p node hnode)
  | succ cnt ih =>
    simp only [fetchRetry] at h
    split at h
    · cases h
      exact hnode
    · obtain ⟨r, -, h⟩ := Option.bind_eq_some_iff.mp h
      split at h
      · exact ih h (hkeep _ node hnode)
      · cases h
        exact hdone _ _ _ _ (hkeep _ node hnode)

/-- The playlist of a live stream is not changed. -/
theorem fetchRetry_live {server : Server} {rangeType : Int} {isLive : Bool} {cnt : Nat}
    {es : List FetchEvent} {p : Progress} {node : M3uBaseNode} {e : FetchEnd}
    (h : fetchRetry server rangeType isLive false cnt es p node = some e) : e.node = node := by
  have hkeep : ∀ p n, keepProgress false p n = n := fun p n => if_neg (by simp)
  apply fetchRetry_inv (P := fun n => n = node) _ _ h rfl
  · intro p n hn
    rw [hkeep, hn]
  · exact fun n hn => hn

/-- A download changes only the offset and the size in a node. -/
theorem fetchRetry_same {server : Server} {rangeType : Int} {isLive vod : Bool} {cnt : Nat}
    {es : List FetchEvent} {p : Progress} {node : M3uBaseNode} {e : FetchEnd}
    (h : fetchRetry server rangeType isLive vod cnt es p node = some e) :
    e.node = { node with readOffset := e.node.readOffset, fileSize := e.node.fileSize } := by
  apply fetchRetry_inv (P := fun n =>
    n = { node with readOffset := n.readOffset, fileSize := n.fileSize }) _ _ h rfl
  · intro p n hn
    unfold keepProgress
    split
    · rw [hn]
    · exact hn
  · intro n hn
    unfold resetOffset
    split
    · rw [hn]
    · exact hn

/-- After a fetch that succeeded, the next segment is next. -/
theorem fetchRetry_goOn {server : Server} {rangeType : Int} {isLive vod : Bool} {cnt : Nat}
    {es : List FetchEvent} {p : Progress} {node : M3uBaseNode} {e : FetchEnd}
    (h : fetchRetry server rangeType isLive vod cnt es p node = some e) (hret : e.ret = 0)
    (hseek : seekRaised e.events = false) : e.goOn = true := by
  have hdone : ∀ ret p node es, (fetchDone vod ret p node es).ret = 0 →
      seekRaised (fetchDone vod ret p node es).events = false →
      (fetchDone vod ret p node es).goOn = true := by
    intro ret p node es hret hseek
    rw [(fetchDone_ret ..).1] at hret
    rw [(fetchDone_ret ..).2.2] at hseek
    unfold fetchDone
    rw [if_neg (by simp [hseek]), if_pos ⟨hret, hseek⟩]
  induction cnt generalizing es p node with
  | zero =>
    simp only [fetchRetry, Option.some_inj] at h
    subst h
    split at hret
    · cases hret
    · rw [(fetchDone_ret ..).1] at hret
      cases hret
  | succ cnt ih =>
    simp only [fetchRetry] at h
    split at h
    · cases h
      cases hret
    · obtain ⟨r, -, h⟩ := Option.bind_eq_some_iff.mp h
      split at h
      · exact ih h
      · cases h
        exact hdone _ _ _ _ hret hseek

/-! ## Resumed downloads -/

/-- A server with the document `doc`, of which it sends what is from the start of a range on. -/
structure Server.Serves (server : Server) (doc : List Byte) : Prop where
  size : server.fsize = doc.length
  whole : server.respond none = doc
  part : ∀ r, server.respond (some r) = doc.drop r.start.toNat

/-- No seek, and no read that ends with `EINTR`. -/
def FetchEvent.Steady : FetchEvent → Prop
  | .seek => False
  | .read rlen _ _ => rlen ≠ eintr
  | _ => True

instance : DecidablePred FetchEvent.Steady
  | .seek => isFalse id
  | .read rlen _ _ => inferInstanceAs (Decidable (rlen ≠ eintr))
  | .openFails _ _ _ => isTrue trivial
  | .openOk => isTrue trivial
  | .cacheFull => isTrue trivial

/-- What has been written behind `c` is what is before the offset. -/
def Progress.Resumable (doc c : List Byte) (p : Progress) : Prop :=
  ∃ k : Nat, p.readOffset = k ∧ k ≤ doc.length ∧ p.cache = c ++ doc.take k

/-- In a response from `k` on, what has been read is in the cache or in the buffer. -/
structure InResponse (doc c : List Byte) (k : Nat) (p : Progress) (r : Reading) : Prop where
  rest : r.rest = doc.drop (k + r.readSize)
  le : k + r.readSize ≤ doc.length
  cache : p.cache ++ r.buf = c ++ doc.take (k + r.readSize)
  offset : p.readOffset + r.buf.length = k + r.readSize
  size : p.fileSize = doc.length

section
variable {doc c : List Byte} {k : Nat} {p : Progress} {r : Reading} {isLive : Bool}

theorem InResponse.flush (h : InResponse doc c k p r) :
    (p.flush r.buf).cache = c ++ doc.take (k + r.readSize) ∧
      (p.flush r.buf).readOffset = k + r.readSize ∧ (p.flush r.buf).fileSize = doc.length :=
  ⟨h.cache, h.offset, h.size⟩

theorem InResponse.resumable (h : InResponse doc c k p r) : (p.flush r.buf).Resumable doc c := by
  obtain ⟨h1, h2, -⟩ := h.flush
  exact ⟨k + r.readSize, by rw [h2]; rfl, h.le, h1⟩

/-- All of the document has been read. -/
theorem InResponse.all (h : InResponse doc c k p r) (hall : r.readSize ≥ doc.length) :
    p.cache ++ r.buf = c ++ doc := by
  rw [h.cache, List.take_of_length_le (by omega)]

/-- How a fetch ends: with the whole document, or so that the next one goes on. -/
def EndsWell (doc c : List Byte) (ret : Int) (p : Progress) : Prop :=
  ret = 0 ∧ p.cache = c ++ doc ∨ ret < 0 ∧ p.Resumable doc c

theorem endOfResponse_endsWell (hdoc : doc ≠ []) (h : InResponse doc c k p r) :
    EndsWell doc c (endOfResponse doc.length p r).1 (endOfResponse doc.length p r).2 := by
  have hpos := List.length_pos_iff.mpr hdoc
  obtain ⟨h1, h2, h3⟩ := h.flush
  have hsize : ¬ (doc.length : Int) < 1 := by omega
  unfold endOfResponse
  simp only [if_neg hsize]
  rw [h2, h3]
  split
  · exact .inr ⟨(by decide : eagain < 0), h.resumable⟩
  · refine .inl ⟨rfl, ?_⟩
    have hle := h.le
    dsimp only
    rw [h1, List.take_of_length_le (by omega)]

theorem readFails_endsWell {code : Int} {late : Bool} {e : Int × Progress}
    (h : InResponse doc c k p r) (hcode : code < 0) (hne : code ≠ eintr)
    (he : readFails isLive doc.length code late p r = some e) : EndsWell doc c e.1 e.2 := by
  unfold readFails at he
  split at he
  · rename_i hall
    cases he
    exact .inl ⟨rfl, h.all (by omega)⟩
  · split at he
    · split at he
      · cases he
        exact .inr ⟨hcode, h.resumable⟩
      · cases he
    · split at he
      · cases he
        exact .inr ⟨(by decide : eagain < 0), h.resumable⟩
      · cases he
        exact .inr ⟨hcode, h.resumable⟩

/-- A chunk goes to the buffer, and from there to the cache or not. -/
theorem InResponse.chunk (h : InResponse doc c k p r) {n : Nat} (toCache : Prop)
    [Decidable toCache] :
    InResponse doc c k (if toCache then p.flush (r.buf ++ r.rest.take n) else p)
      ⟨r.rest.drop (r.rest.take n).length,
        if toCache then [] else r.buf ++ r.rest.take n, r.readSize + (r.rest.take n).length⟩ := by
  have hlen : (r.rest.take n).length = min n (doc.length - (k + r.readSize)) := by
    rw [List.length_take, h.rest, List.length_drop]
  have hle := h.le
  have hchunk : r.rest.take n =
      (doc.drop (k + r.readSize)).take (r.rest.take n).length := by
    rw [h.rest, List.length_take, ← List.take_take, List.take_length]
  have hcache : p.cache ++ (r.buf ++ r.rest.take n) =
      c ++ doc.take (k + (r.readSize + (r.rest.take n).length)) := by
    rw [← List.append_assoc, h.cache, ← Nat.add_assoc,
      List.take_add (i := k + r.readSize) (j := (r.rest.take n).length), List.append_assoc, ← hchunk]
  have hoffset := h.offset
  refine ⟨?_, ?_, ?_, ?_, ?_⟩
  · dsimp only
    rw [h.rest, List.drop_drop, Nat.add_assoc]
  · dsimp only
    omega
  · dsimp only
    split
    · rw [List.append_nil]
      exact hcache
    · exact hcache
  · dsimp only
    split
    · simp only [Progress.flush, List.length_append, List.length_nil]
      omega
    · rw [List.length_append]
      omega
  · split
    · exact h.size
    · exact h.size

theorem readLoop_endsWell {es es' : List FetchEvent} {ret : Int} {p' : Progress} (hdoc : doc ≠ [])
    (hes : ∀ e ∈ es, e.Steady) (h : InResponse doc c k p r)
    (hr : readLoop isLive doc.length es p r = some (ret, p', es')) :
    EndsWell doc c ret p' ∧ es' ⊆ es := by
  induction es generalizing p r with
  | nil => cases hr
  | cons e es ih =>
    have hes' : ∀ e ∈ es, e.Steady := fun e he => hes e (List.mem_cons_of_mem _ he)
    have hsub : es ⊆ e :: es := List.subset_cons_self e es
    cases e with
    | openFails errcode late netDown => cases hr
    | openOk => cases hr
    | seek => exact absurd (hes _ List.mem_cons_self) id
    | cacheFull =>
      obtain ⟨h1, h2⟩ := ih hes' h hr
      exact ⟨h1, List.Subset.trans h2 hsub⟩
    | read rlen firstNode late =>
      simp only [readLoop] at hr
      split at hr
      · rename_i hneg
        cases he : readFails isLive doc.length rlen late p r with
        | some e =>
          rw [he] at hr
          cases hr
          exact ⟨readFails_endsWell h hneg (hes _ List.mem_cons_self) he, hsub⟩
        | none =>
          rw [he] at hr
          obtain ⟨h1, h2⟩ := ih hes' h hr
          exact ⟨h1, List.Subset.trans h2 hsub⟩
      · split at hr
        · cases hr
          exact ⟨endOfResponse_endsWell hdoc h, hsub⟩
        · have hc := h.chunk
            (n := min rlen.toNat (min (bufTmpSize doc.length - r.buf.length) readOnceBlockSize))
            ((r.buf ++ r.rest.take (min rlen.toNat
              (min (bufTmpSize doc.length - r.buf.length) readOnceBlockSize))).length ≥
                bufTmpSize doc.length ∨ firstNode = true)
          split at hr
          · rename_i hall
            cases hr
            exact ⟨.inl ⟨rfl, hc.all (by dsimp only; omega)⟩, hsub⟩
          · obtain ⟨h1, h2⟩ := ih hes' hc hr
            exact ⟨h1, List.Subset.trans h2 hsub⟩

/-- The response to the request of a fetch goes on where the cache ends. -/
theorem Server.Serves.respond {server : Server} (hs : server.Serves doc) (rangeType : Int)
    (h : p.Resumable doc c) :
    ∃ k : Nat, InResponse doc c k { p with fileSize := doc.length }
      ⟨server.respond (rangeHeader rangeType p.readOffset p.fileSize), [], 0⟩ := by
  obtain ⟨k, hk, hle, hcache⟩ := h
  refine ⟨k, ?_, hle, ?_, ?_, rfl⟩
  · dsimp only
    unfold rangeHeader
    split
    · rw [hs.part, hk]
      rfl
    · rw [hs.whole, show k = 0 by omega]
      rfl
  · rw [List.append_nil]
    exact hcache
  · dsimp only
    rw [hk]
    rfl

theorem fetchSegmentFile_endsWell {server : Server} {rangeType : Int} {es es' : List FetchEvent}
    {ret : Int} {p' : Progress} (hdoc : doc ≠ []) (hs : server.Serves doc)
    (hes : ∀ e ∈ es, e.Steady) (h : p.Resumable doc c)
    (hr : fetchSegmentFile server rangeType isLive es p = some (ret, p', es')) :
    EndsWell doc c ret p' ∧ es' ⊆ es := by
  have hneg : eagain < 0 := by decide
  induction es with
  | nil => cases hr
  | cons e es ih =>
    have hes' : ∀ e ∈ es, e.Steady := fun e he => hes e (List.mem_cons_of_mem _ he)
    have hsub : es ⊆ e :: es := List.subset_cons_self e es
    cases e with
    | seek => exact absurd (hes _ List.mem_cons_self) id
    | cacheFull => cases hr
    | read rlen firstNode late => cases hr
    | openFails errcode late netDown =>
      simp only [fetchSegmentFile] at hr
      split at hr
      · obtain ⟨h1, h2⟩ := ih hes' hr
        exact ⟨h1, List.Subset.trans h2 hsub⟩
      · split at hr
        · cases hr
          exact ⟨.inr ⟨hneg, h⟩, hsub⟩
        · split at hr
          · cases hr
            exact ⟨.inr ⟨hneg, h⟩, hsub⟩
          · obtain ⟨h1, h2⟩ := ih hes' hr
            exact ⟨h1, List.Subset.trans h2 hsub⟩
    | openOk =>
      have hpos : (doc.length : Int) > 0 := by
        have := List.length_pos_iff.mpr hdoc
        omega
      obtain ⟨k, hk⟩ := hs.respond rangeType h
      simp only [fetchSegmentFile, hs.size, if_pos hpos] at hr
      obtain ⟨h1, h2⟩ := readLoop_endsWell hdoc hes' hk hr
      exact ⟨h1, List.Subset.trans h2 hsub⟩

/-- **A resumed download is the document**: over all retries, when the last one succeeds. -/
theorem fetchRetry_cache {server : Server} {rangeType : Int} {vod : Bool} {cnt : Nat}
    {es : List FetchEvent} {node : M3uBaseNode} {e : FetchEnd} (hdoc : doc ≠ [])
    (hs : server.Serves doc) (hes : ∀ e ∈ es, e.Steady) (h : p.Resumable doc c)
    (hr : fetchRetry server rangeType isLive vod cnt es p node = some e) (hret : e.ret = 0) :
    e.progress.cache = c ++ doc := by
  induction cnt generalizing es p node with
  | zero =>
    simp only [fetchRetry, Option.some_inj] at hr
    subst hr
    split at hret
    · cases hret
    · rw [(fetchDone_ret ..).1] at hret
      cases hret
  | succ cnt ih =>
    simp only [fetchRetry] at hr
    split at hr
    · cases hr
      cases hret
    · obtain ⟨⟨ret, p', es'⟩, hf, hr⟩ := Option.bind_eq_some_iff.mp hr
      obtain ⟨hend, hsub⟩ := fetchSegmentFile_endsWell hdoc hs hes h hf
      dsimp only at hr
      split at hr
      · rename_i hagain
        rcases hend with ⟨h0, -⟩ | ⟨-, hres⟩
        · omega
        · exact ih (fun e he => hes e (hsub he)) hres hr
      · cases hr
        obtain ⟨h1, h2, -⟩ := fetchDone_ret vod ret p' (keepProgress vod p' node) es'
        rw [h1] at hret
        rw [h2]
        rcases hend with ⟨-, hcache⟩ | ⟨hneg, -⟩
        · exact hcache
        · omega

end

end VendorAmlogic.Hls
