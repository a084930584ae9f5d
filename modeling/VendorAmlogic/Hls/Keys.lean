import VendorAmlogic.Hls.Session
import VendorAmlogic.Hls.Text

/-!
# Keys of segments

`_get_decrypt_key`, the flag that `_set_session_para` sets, and how
`_fetch_segment_file` opens a segment, of `hls_main/hls_m3ulivesession.c`.
Keys come from a server with one key for each URL. Where
`_get_decrypt_key` fails, the segment is tried again without an end, and there
is no result. The session has neither media groups nor close flags.
-/

namespace VendorAmlogic.Hls

open VendorAmlogic.Lib

/-- How `hls_http_open` is called: without a key, with one, or with a record that nobody has
set. -/
inductive Opening where
  | clear
  | aes (key iv : List Byte)
  | unset
  deriving DecidableEq

/-- `isEncryptMedia` is there when it is not -1; `aesKeyurlList` has the URLs and their keys. -/
structure KeySession where
  playlist : Option M3UParser
  isEncryptMedia : Option Bool
  aesKeyurlList : List (List Byte × List Byte)
  deriving DecidableEq

def KeySession.init : KeySession := ⟨none, none, []⟩

/-- The flag of `_set_session_para`, by the first node of a playlist. -/
def KeySession.setSessionPara (s : KeySession) (p : M3UParser) : Option KeySession := do
  let node ← p.getNodeByIndex 0
  let method := match node.key with
    | some key => if key.method ≠ [] then key.method else bytes "NONE"
    | none => bytes "NONE"
  some { s with
    playlist := some p
    isEncryptMedia := s.isEncryptMedia.or
      (some (node.cipherInfo && decide (method ≠ bytes "NONE"))) }

/-- The node with a key that is the last one up to an index. -/
def M3UParser.cipherNode (p : M3UParser) : Nat → Option M3uBaseNode
  | 0 => (p.getNodeByIndex 0).filter (·.cipherInfo)
  | i + 1 => ((p.getNodeByIndex (i + 1 : Nat)).filter (·.cipherInfo)).or (p.cipherNode i)

def hexDigit (c : Byte) : Option Byte :=
  let c := tolower c
  if isdigit c then some (c - 0x30)
  else if 0x61 ≤ c && c ≤ 0x66 then some (c - 0x61 + 10)
  else none

/-- The values of pairs of hex digits. -/
def hexBytes : Nat → List Byte → Option (List Byte)
  | 0, _ => some []
  | n + 1, c₁ :: c₂ :: s => do
    let nibble₁ ← hexDigit c₁
    let nibble₂ ← hexDigit c₂
    let rest ← hexBytes n s
    some ((nibble₁ <<< 4 ||| nibble₂) :: rest)
  | _ + 1, _ => none

/-- The value of the attribute `IV`. -/
def readIv (iv : List Byte) : Option (List Byte) :=
  if (bytes "0x").isPrefixOf iv ∨ (bytes "0X").isPrefixOf iv then hexBytes 16 (iv.drop 2) else none

/-- `aes_ivec` when there is no attribute. -/
def indexIv (playlistIndex : Nat) : List Byte :=
  List.replicate 12 0 ++ [BitVec.ofNat 8 (playlistIndex / 2 ^ 24),
    BitVec.ofNat 8 (playlistIndex / 2 ^ 16), BitVec.ofNat 8 (playlistIndex / 2 ^ 8),
    BitVec.ofNat 8 playlistIndex]

/-- `aes_ivec`. -/
def M3uKeyInfo.ivec (info : M3uKeyInfo) (playlistIndex : Nat) : Option (List Byte) :=
  if info.iv ≠ [] then readIv info.iv else some (indexIv playlistIndex)

/-- The key of a URL, from the list or from the server. -/
def KeySession.keyFor (keyServer : List Byte → List Byte) (s : KeySession) (keyUrl : List Byte) :
    List Byte × KeySession :=
  match s.aesKeyurlList.find? fun e => e.1 = keyUrl with
  | some e => (e.2, s)
  | none =>
    let key := (keyServer keyUrl).take 16
    (key, { s with aesKeyurlList := s.aesKeyurlList ++ [(keyUrl, key)] })

/-- `_get_decrypt_key` where `is_encrypt_media` is set. -/
def KeySession.getDecryptKey (keyServer : List Byte → List Byte) (s : KeySession)
    (playlistIndex : Nat) : Option (Opening × KeySession) := do
  let p ← s.playlist
  match p.cipherNode playlistIndex with
  | none => some (.unset, s)
  | some node => do
    let info ← node.key
    if info.method = bytes "NONE" then some (.unset, s)
    else if info.method ≠ bytes "AES-128" then none
    else
      let (key, s) := s.keyFor keyServer info.keyUrl
      let iv ← info.ivec playlistIndex
      some (.aes key iv, s)

/-- How `_fetch_segment_file` opens the segment with this index. -/
def KeySession.openSegment (keyServer : List Byte → List Byte) (s : KeySession) (index : Nat) :
    Option (Opening × KeySession) :=
  if s.isEncryptMedia = some true then s.getDecryptKey keyServer index else some (.clear, s)

/-! ## What the text asks for -/

/-- A number in 16 bytes, the highest first. -/
def bigEndian (n : Int) : List Byte :=
  (List.range 16).map fun i => BitVec.ofInt 8 (n / 256 ^ (15 - i))

/-- A key that does not encrypt. -/
def Segment.Clear (seg : Segment) : Prop := ∀ info ∈ seg.key, info.method = bytes "NONE"

instance (seg : Segment) : Decidable seg.Clear :=
  inferInstanceAs (Decidable (∀ info ∈ seg.key, info.method = bytes "NONE"))

theorem Segment.clear_of_none (seg : Segment) (h : seg.key = none) : seg.Clear := by
  unfold Segment.Clear
  rw [h]
  exact fun _ hinfo => nomatch hinfo

theorem Segment.clear_iff (seg : Segment) {info : M3uKeyInfo} (h : seg.key = some info) :
    seg.Clear ↔ info.method = bytes "NONE" := by
  unfold Segment.Clear
  rw [h]
  exact ⟨fun hc => hc info rfl, fun hc _ hinfo => Option.some_inj.mp hinfo ▸ hc⟩

/-- How a segment with this key and media sequence number is to be opened. -/
def expectedOpening (keyServer : List Byte → List Byte) (key : Option M3uKeyInfo) (seq : Int) :
    Option Opening :=
  match key with
  | none => some .clear
  | some info =>
    if info.method = bytes "NONE" then some .clear
    else if info.iv = [] then some (.aes (keyServer info.keyUrl) (bigEndian seq))
    else (readIv info.iv).map (.aes (keyServer info.keyUrl))

/-- The media sequence number of the segment at a place. -/
def Told.number (t : Told) (i : Nat) : Int :=
  (if t.mediaSequence = -1 then 0 else t.mediaSequence) + i

/-- The method is `NONE` or `AES-128`, and a value for the start is 16 bytes in hex. -/
def M3uKeyInfo.Supported (info : M3uKeyInfo) : Prop :=
  info.method = bytes "NONE" ∨
    info.method = bytes "AES-128" ∧ (info.iv = [] ∨ (readIv info.iv).isSome)

/-- What a session can come to by the playlists that it loads and the segments that it opens;
`seg₀` is the first segment of the first playlist. -/
inductive KeySession.Reachable (keyServer : List Byte → List Byte) :
    KeySession → Option Segment → Prop
  | init : Reachable keyServer .init none
  | load {s s' : KeySession} {seg₀ : Option Segment} {penv : ParseEnv} {text : List Byte}
      {p : M3UParser} : Reachable keyServer s seg₀ → m3uParse penv text = some (some p) →
      p.isVariantPlaylist = false →
      (∀ seg ∈ (told penv text).segments, ∀ info ∈ seg.key, info.Supported) →
      s.setSessionPara p = some s' →
      Reachable keyServer s' (seg₀.or ((told penv text).segment 0))
  | opened {s s' : KeySession} {seg₀ : Option Segment} {index : Nat} {o : Opening} :
      Reachable keyServer s seg₀ → s.openSegment keyServer index = some (o, s') →
      Reachable keyServer s' seg₀

section
variable {keyServer : List Byte → List Byte} {s s' : KeySession} {seg₀ : Option Segment}
  {penv : ParseEnv} {t : Told} {p : M3UParser} {i : Nat}

/-! ## Nodes by index -/

/-- The node and the segment at a place. -/
theorem Tells.get (h : Tells penv t p) (hi : i < p.head.length) :
    ∃ n seg, p.getNodeByIndex i = some n ∧ t.segment i = some seg ∧ n.index = i ∧
      n.Keeps penv seg ∧ seg.key = n.key.or (keyBefore t.segments i) := by
  obtain ⟨segs, hsegs, hnodes⟩ := h.nodes
  obtain ⟨n, seg, hn, hseg, hindex, hkeeps, hkey⟩ := hnodes.get hi
  refine ⟨n, seg, ?_, Told.segment_of_suffix hsegs hseg, hindex, hkeeps, ?_⟩
  · have hindexed : p.Indexed := by
      refine ⟨h.num, fun j hj => ?_⟩
      obtain ⟨m, -, hm, -, hmindex, -⟩ := hnodes.get (by rwa [List.length_reverse] at hj)
      rw [List.getElem?_eq_getElem hj] at hm
      cases hm
      exact hmindex
    obtain ⟨hlt, rfl⟩ := List.getElem?_eq_some_iff.mp hn
    exact hindexed.getNodeByIndex hlt
  · rw [hkey]
    cases i with
    | zero => rfl
    | succ i =>
      obtain ⟨-, seg', -, hseg', -⟩ := hnodes.get (Nat.lt_of_succ_lt hi)
      simp only [keyBefore]
      rw [hseg', ← Told.segment, Told.segment_of_suffix hsegs hseg']

/-- The key of a node as the search sees it. -/
theorem M3uBaseNode.Keeps.filter {n : M3uBaseNode} {seg : Segment} (h : n.Keeps penv seg) :
    ((some n).filter (·.cipherInfo)).map (·.key) = n.key.map some := by
  have hflag := h.cipherInfo
  cases hkey : n.key with
  | none =>
    rw [hkey] at hflag
    rw [Option.filter_some_neg (by simp [hflag])]
    rfl
  | some info =>
    rw [hkey] at hflag
    rw [Option.filter_some_pos (by simp [hflag]), Option.map_some, hkey]
    rfl

/-- The search back finds the key of the segment. -/
theorem Tells.cipherNode (h : Tells penv t p) (hi : i < p.head.length) {seg : Segment}
    (hseg : t.segment i = some seg) : (p.cipherNode i).map (·.key) = seg.key.map some := by
  induction i generalizing seg with
  | zero =>
    obtain ⟨n, seg', hn, hseg', -, hkeeps, hkey⟩ := h.get hi
    obtain rfl : seg = seg' := Option.some_inj.mp (hseg.symm.trans hseg')
    simp only [M3UParser.cipherNode]
    rw [show p.getNodeByIndex 0 = some n from hn, hkeeps.filter, hkey]
    simp only [keyBefore, Option.or_none]
  | succ i ih =>
    obtain ⟨n, seg', hn, hseg', -, hkeeps, hkey⟩ := h.get hi
    obtain rfl : seg = seg' := Option.some_inj.mp (hseg.symm.trans hseg')
    obtain ⟨-, before, -, hbefore, -⟩ := h.get (Nat.lt_of_succ_lt hi)
    simp only [M3UParser.cipherNode]
    rw [hn, Option.map_or, hkeeps.filter, ih (Nat.lt_of_succ_lt hi) hbefore, hkey, Option.map_or]
    simp only [keyBefore]
    rw [← Told.segment, hbefore]
    rfl

/-! ## Sessions -/

/-- The keys in the list are those of the server. -/
def KeySession.Cached (keyServer : List Byte → List Byte) (s : KeySession) : Prop :=
  ∀ e ∈ s.aesKeyurlList, e.2 = keyServer e.1

theorem KeySession.Cached.keyFor (hserver : ∀ url, (keyServer url).length = 16)
    (h : s.Cached keyServer) (url : List Byte) :
    (s.keyFor keyServer url).1 = keyServer url ∧ (s.keyFor keyServer url).2.Cached keyServer := by
  unfold KeySession.keyFor
  split
  · rename_i e he
    have hurl := List.find?_some he
    refine ⟨?_, h⟩
    rw [h e (List.mem_of_find?_eq_some he), of_decide_eq_true hurl]
  · have htake : (keyServer url).take 16 = keyServer url :=
      List.take_of_length_le (Nat.le_of_eq (hserver url))
    refine ⟨htake, fun e he => ?_⟩
    rcases List.mem_append.mp he with he | he
    · exact h e he
    · rw [List.mem_singleton.mp he]
      exact htake

/-- What is known of a segment that is opened with a key, or without one. -/
theorem KeySession.openSegment_cases {o : Opening} (h : s.openSegment keyServer i = some (o, s')) :
    s' = s ∨ ∃ url, s' = (s.keyFor keyServer url).2 := by
  unfold KeySession.openSegment at h
  split at h
  · obtain ⟨p, -, h⟩ := Option.bind_eq_some_iff.mp h
    split at h
    · cases h
      exact .inl rfl
    · obtain ⟨info, -, h⟩ := Option.bind_eq_some_iff.mp h
      split at h
      · cases h
        exact .inl rfl
      · split at h
        · cases h
        · obtain ⟨iv, -, h⟩ := Option.bind_eq_some_iff.mp h
          cases h
          exact .inr ⟨_, rfl⟩
  · cases h
    exact .inl rfl

theorem KeySession.keyFor_flag (s : KeySession) (url : List Byte) :
    (s.keyFor keyServer url).2.isEncryptMedia = s.isEncryptMedia := by
  unfold KeySession.keyFor
  split
  · rfl
  · rfl

theorem head_pos_of_getNodeByIndex (h : Tells penv t p) {node : M3uBaseNode} {k : Nat}
    (hnode : p.getNodeByIndex k = some node) : k < p.head.length := by
  have hnum := h.num
  unfold M3UParser.getNodeByIndex at hnode
  split at hnode
  · cases hnode
  · omega

/-- The flag that the first node sets. -/
theorem firstFlag {node : M3uBaseNode} {seg : Segment} (hkeeps : node.Keeps penv seg)
    (hkey : seg.key = node.key) (hsupp : ∀ info ∈ seg.key, info.Supported) :
    (node.cipherInfo && decide ((match node.key with
      | some key => if key.method ≠ [] then key.method else bytes "NONE"
      | none => bytes "NONE") ≠ bytes "NONE")) = decide (¬ seg.Clear) := by
  have hflag := hkeeps.cipherInfo
  rw [hflag]
  cases hinfo : node.key with
  | none =>
    have hclear := seg.clear_of_none (hkey.trans hinfo)
    simp [hclear]
  | some info =>
    have hclear := seg.clear_iff (hkey.trans hinfo)
    have hmethod : info.method ≠ [] := by
      rcases hsupp info (hkey.trans hinfo) with h | ⟨h, -⟩
      · rw [h]
        decide
      · rw [h]
        decide
    simp [hmethod, hclear]

theorem KeySession.Reachable.cached (hserver : ∀ url, (keyServer url).length = 16)
    (h : s.Reachable keyServer seg₀) : s.Cached keyServer := by
  induction h with
  | init => exact fun e he => nomatch he
  | load _ _ _ _ hset ih =>
    obtain ⟨node, -, hset⟩ := Option.bind_eq_some_iff.mp hset
    cases hset
    exact ih
  | opened _ hopen ih =>
    rcases KeySession.openSegment_cases hopen with rfl | ⟨url, rfl⟩
    · exact ih
    · exact (ih.keyFor hserver url).2

/-- The flag says whether the first segment has a key. -/
theorem KeySession.Reachable.flag (h : s.Reachable keyServer seg₀) :
    s.isEncryptMedia = seg₀.map fun seg => decide (¬ seg.Clear) := by
  induction h with
  | init => rfl
  | @load _ _ seg₀ _ _ _ _ hparse _ hkeys hset ih =>
    obtain ⟨node, hnode, hset⟩ := Option.bind_eq_some_iff.mp hset
    cases hset
    obtain ⟨n, seg, hn, hseg, -, hkeeps, hkey⟩ := (m3uParse_tells hparse).get
      (head_pos_of_getNodeByIndex (m3uParse_tells hparse) hnode)
    obtain rfl : node = n := Option.some_inj.mp (hnode.symm.trans hn)
    have hmem : seg ∈ (told _ _).segments :=
      List.mem_reverse.mp (List.mem_of_getElem? hseg)
    rw [ih, hseg]
    cases seg₀ with
    | some seg₀ => rfl
    | none => exact congrArg some (firstFlag hkeeps (by simpa [keyBefore] using hkey) (hkeys seg hmem))
  | opened _ hopen ih =>
    rcases KeySession.openSegment_cases hopen with rfl | ⟨url, rfl⟩
    · exact ih
    · rw [KeySession.keyFor_flag]
      exact ih

/-! ## Numbers -/

theorem ofInt_eq_ofNat_iff {x : Int} {y : Nat} :
    BitVec.ofInt 8 x = BitVec.ofNat 8 y ↔ x % 256 = (y : Int) % 256 := by
  rw [← BitVec.toNat_inj, BitVec.toNat_ofInt, BitVec.toNat_ofNat]
  omega

theorem bigEndian_natCast {i : Nat} (hi : i < 2 ^ 31) : bigEndian i = indexIv i := by
  unfold bigEndian indexIv
  rw [show List.range 16 = [0, 1, 2, 3, 4, 5, 6, 7, 8, 9, 10, 11, 12, 13, 14, 15] from rfl]
  simp only [List.map_cons, List.map_nil, List.replicate, List.cons_append, List.nil_append,
    List.cons.injEq, and_true]
  have hhigh : ∀ k : Nat, 4 ≤ k → BitVec.ofInt 8 ((i : Int) / 256 ^ k) = 0 := by
    intro k hk
    have hpow : 256 ^ 4 ≤ 256 ^ k := Nat.pow_le_pow_right (by omega) hk
    have hlt : i < 256 ^ k := by omega
    have hcast : ((256 ^ k : Nat) : Int) = 256 ^ k := Int.natCast_pow 256 k
    rw [Int.ediv_eq_zero_of_lt (Int.natCast_nonneg i) (hcast ▸ Int.ofNat_lt.mpr hlt)]
    rfl
  refine ⟨hhigh 15 (by omega), hhigh 14 (by omega), hhigh 13 (by omega), hhigh 12 (by omega),
    hhigh 11 (by omega), hhigh 10 (by omega), hhigh 9 (by omega), hhigh 8 (by omega),
    hhigh 7 (by omega), hhigh 6 (by omega), hhigh 5 (by omega), hhigh 4 (by omega), ?_⟩
  simp only [ofInt_eq_ofNat_iff]
  omega

theorem bigEndian_eq_indexIv_iff {n : Int} {i : Nat} (hi : i < 2 ^ 31) (hn : -2 ^ 31 ≤ n - i)
    (hn' : n - i < 2 ^ 31) : bigEndian n = indexIv i ↔ n = i := by
  constructor
  · intro h
    have hbyte : ∀ k : Nat, (bigEndian n)[k]? = (indexIv i)[k]? := fun k => by rw [h]
    have h12 := hbyte 12
    have h13 := hbyte 13
    have h14 := hbyte 14
    have h15 := hbyte 15
    simp [bigEndian, indexIv, ofInt_eq_ofNat_iff] at h12 h13 h14 h15
    omega
  · rintro rfl
    exact bigEndian_natCast hi

theorem parseMetaData_bound (line : List Byte) :
    -2 ^ 31 ≤ parseMetaData line ∧ parseMetaData line < 2 ^ 31 := by
  unfold parseMetaData
  split
  · split
    · exact ⟨neg_le_i32 _, i32_lt _⟩
    · decide
  · decide

theorem told_sequence_bound (penv : ParseEnv) (text : List Byte) :
    -2 ^ 31 ≤ (told penv text).mediaSequence ∧ (told penv text).mediaSequence < 2 ^ 31 := by
  have hline : ∀ (t : Told) line, -2 ^ 31 ≤ t.mediaSequence ∧ t.mediaSequence < 2 ^ 31 →
      -2 ^ 31 ≤ (t.line penv line).mediaSequence ∧ (t.line penv line).mediaSequence < 2 ^ 31 := by
    intro t line ht
    unfold Told.line
    repeat' split
    all_goals try exact ht
    rename_i tag _
    cases tag
    case mediaSequence =>
      simp only [Told.tag]
      split
      · exact parseMetaData_bound line
      · exact ht
    case key =>
      simp only [Told.tag]
      split
      · exact ht
      · exact ht
    case byterange =>
      simp only [Told.tag]
      split
      · exact ht
      · exact ht
    all_goals exact ht
  have hlines : ∀ (lines : List (List Byte)) (t : Told),
      -2 ^ 31 ≤ t.mediaSequence ∧ t.mediaSequence < 2 ^ 31 →
      -2 ^ 31 ≤ (lines.foldl (Told.line penv) t).mediaSequence ∧
        (lines.foldl (Told.line penv) t).mediaSequence < 2 ^ 31 := by
    intro lines
    induction lines with
    | nil => exact fun t ht => ht
    | cons line lines ih => exact fun t ht => ih _ (hline t line ht)
  exact hlines _ _ (by decide)

/-! ## Openings -/

theorem KeySession.getDecryptKey_clear {seg : Segment} (hp : s.playlist = some p)
    (hnode : (p.cipherNode i).map (·.key) = seg.key.map some) (hclear : seg.Clear) :
    s.getDecryptKey keyServer i = some (.unset, s) := by
  unfold KeySession.getDecryptKey
  rw [hp, Option.bind_eq_bind, Option.bind_some]
  cases hc : p.cipherNode i with
  | none => rfl
  | some n =>
    rw [hc, Option.map_some] at hnode
    cases hkey : seg.key with
    | none =>
      rw [hkey] at hnode
      cases hnode
    | some info =>
      rw [hkey, Option.map_some] at hnode
      have hn : n.key = some info := Option.some_inj.mp hnode
      have hmethod := (seg.clear_iff hkey).mp hclear
      dsimp only
      rw [hn, Option.bind_eq_bind, Option.bind_some, if_pos hmethod]

theorem KeySession.getDecryptKey_aes {info : M3uKeyInfo} (hp : s.playlist = some p)
    (hnode : (p.cipherNode i).map (·.key) = some (some info))
    (hmethod : info.method = bytes "AES-128") (hserver : ∀ url, (keyServer url).length = 16)
    (hs : s.Cached keyServer) :
    (s.getDecryptKey keyServer i).map (·.1) =
      (info.ivec i).map (.aes (keyServer info.keyUrl)) := by
  obtain ⟨n, hc, hn⟩ := Option.map_eq_some_iff.mp hnode
  have hne : info.method ≠ bytes "NONE" := by
    rw [hmethod]
    decide
  unfold KeySession.getDecryptKey
  rw [hp, Option.bind_eq_bind, Option.bind_some, hc]
  dsimp only
  rw [hn, Option.bind_eq_bind, Option.bind_some, if_neg hne, if_neg (by simp [hmethod])]
  rw [(hs.keyFor hserver info.keyUrl).1]
  cases info.ivec i with
  | none => rfl
  | some iv => rfl

/-- The segment at a place is opened as the text asks. -/
def OpensAsTold (keyServer : List Byte → List Byte) (s : KeySession) (t : Told) (i : Nat) : Prop :=
  ∃ seg o, t.segment i = some seg ∧ (s.openSegment keyServer i).map (·.1) = some o ∧
    expectedOpening keyServer seg.key (t.number i) = some o

/-- The segment is in clear when the first one of the session is, and only then; and where a key
comes without a start, the numbers of the playlist are its indices. -/
def KeysCareful (t : Told) (seg₀ seg : Segment) : Prop :=
  (seg.Clear ↔ seg₀.Clear) ∧ (¬ seg.Clear → (∀ info ∈ seg.key, info.iv = []) → t.number 0 = 0)

theorem expectedOpening_clear_iff (seg : Segment) (seq : Int) :
    expectedOpening keyServer seg.key seq = some .clear ↔ seg.Clear := by
  cases hkey : seg.key with
  | none => exact iff_of_true rfl (seg.clear_of_none hkey)
  | some info =>
    rw [seg.clear_iff hkey]
    unfold expectedOpening
    constructor
    · intro h
      by_contra hne
      simp only [if_neg hne] at h
      split at h
      · cases h
      · obtain ⟨iv, -, h⟩ := Option.map_eq_some_iff.mp h
        cases h
    · exact fun h => if_pos h

/-- The start of the decryption is as it should be. -/
theorem expectedOpening_eq_iff {info : M3uKeyInfo} {n : Int} (hmethod : info.method = bytes "AES-128")
    (hiv : info.iv = [] ∨ (readIv info.iv).isSome) (hi : i < 2 ^ 31) (hn : -2 ^ 31 ≤ n - i)
    (hn' : n - i < 2 ^ 31) :
    (∃ o, (info.ivec i).map (.aes (keyServer info.keyUrl)) = some o ∧
        expectedOpening keyServer (some info) n = some o) ↔ (info.iv = [] → n = i) := by
  have hne : info.method ≠ bytes "NONE" := by
    rw [hmethod]
    decide
  simp only [expectedOpening, if_neg hne, M3uKeyInfo.ivec]
  by_cases hempty : info.iv = []
  · simp only [hempty, ne_eq, not_true_eq_false, if_false, if_true, Option.map_some,
      Option.some_inj, true_implies, exists_eq_left', Opening.aes.injEq, true_and]
    exact bigEndian_eq_indexIv_iff hi hn hn'
  · obtain ⟨iv, hread⟩ := Option.isSome_iff_exists.mp (hiv.resolve_left hempty)
    simp [hempty, hread]

theorem number_sub (t : Told) (i : Nat) : t.number i - i = t.number 0 := by
  unfold Told.number
  omega

theorem number_bound (penv : ParseEnv) (text : List Byte) :
    -2 ^ 31 ≤ (told penv text).number 0 ∧ (told penv text).number 0 < 2 ^ 31 := by
  have := told_sequence_bound penv text
  unfold Told.number
  split
  · decide
  · omega

section
variable {seg₀ seg : Segment} {text : List Byte}

/-- A session that takes all segments to be in clear. -/
theorem opensAsTold_iff_of_clear (hs : s.Reachable keyServer (some seg₀)) (h0 : seg₀.Clear)
    (hseg : t.segment i = some seg) :
    OpensAsTold keyServer s t i ↔ KeysCareful t seg₀ seg := by
  have hopen : s.openSegment keyServer i = some (.clear, s) := by
    unfold KeySession.openSegment
    rw [hs.flag]
    simp [h0]
  constructor
  · rintro ⟨seg', o, hseg', ho, hexp⟩
    obtain rfl : seg = seg' := Option.some_inj.mp (hseg.symm.trans hseg')
    rw [hopen] at ho
    cases ho
    have hclear := (expectedOpening_clear_iff seg (t.number i)).mp hexp
    exact ⟨iff_of_true hclear h0, fun hn => absurd hclear hn⟩
  · rintro ⟨hiff, -⟩
    refine ⟨seg, .clear, hseg, by rw [hopen]; rfl, ?_⟩
    exact (expectedOpening_clear_iff seg _).mpr (hiff.mpr h0)

/-- A session that looks for the keys. -/
theorem opensAsTold_iff_of_keys (hserver : ∀ url, (keyServer url).length = 16)
    (hs : s.Reachable keyServer (some seg₀)) (h0 : ¬ seg₀.Clear) (hp : s.playlist = some p)
    (hsearch : (p.cipherNode i).map (·.key) = seg.key.map some) (hi : i < 2 ^ 31)
    (hseg : (told penv text).segment i = some seg) (hkeys : ∀ info ∈ seg.key, info.Supported) :
    OpensAsTold keyServer s (told penv text) i ↔ KeysCareful (told penv text) seg₀ seg := by
  have hopen : s.openSegment keyServer i = s.getDecryptKey keyServer i := by
    unfold KeySession.openSegment
    rw [hs.flag]
    simp [h0]
  have hopens : OpensAsTold keyServer s (told penv text) i ↔
      ∃ o, (s.getDecryptKey keyServer i).map (·.1) = some o ∧
        expectedOpening keyServer seg.key ((told penv text).number i) = some o := by
    unfold OpensAsTold
    rw [hopen]
    constructor
    · rintro ⟨seg', o, hseg', ho, hexp⟩
      obtain rfl : seg = seg' := Option.some_inj.mp (hseg.symm.trans hseg')
      exact ⟨o, ho, hexp⟩
    · rintro ⟨o, ho, hexp⟩
      exact ⟨seg, o, hseg, ho, hexp⟩
  rw [hopens]
  by_cases hclear : seg.Clear
  · rw [KeySession.getDecryptKey_clear hp hsearch hclear]
    constructor
    · rintro ⟨o, ho, hexp⟩
      cases ho
      rw [(expectedOpening_clear_iff seg _).mpr hclear] at hexp
      cases hexp
    · rintro ⟨hiff, -⟩
      exact absurd (hiff.mp hclear) h0
  · cases hkey : seg.key with
    | none => exact absurd (seg.clear_of_none hkey) hclear
    | some info =>
      have hmethod := (hkeys info hkey).resolve_left fun h => hclear ((seg.clear_iff hkey).mpr h)
      have hsub := number_sub (told penv text) i
      have hbound := number_bound penv text
      rw [hkey] at hsearch
      rw [KeySession.getDecryptKey_aes hp hsearch hmethod.1 hserver (hs.cached hserver),
        expectedOpening_eq_iff hmethod.1 hmethod.2 hi (by omega) (by omega)]
      unfold KeysCareful
      rw [hkey]
      constructor
      · intro h
        refine ⟨iff_of_false hclear h0, fun _ hempty => ?_⟩
        have := h (hempty info rfl)
        omega
      · rintro ⟨-, h⟩ hempty
        have := h hclear fun info' hinfo' => Option.some_inj.mp hinfo' ▸ hempty
        omega

end

/-- **Keys of segments**: in every session that loads playlists and opens segments, a segment is
opened as its playlist asks exactly when the session and the numbers allow it; and where two
segments with the same key and number are opened so, they are opened in the same way. -/
theorem opensAsTold_iff {seg₀ seg : Segment} {text : List Byte}
    (hserver : ∀ url, (keyServer url).length = 16) (hs : s.Reachable keyServer (some seg₀))
    (hparse : m3uParse penv text = some (some p)) (hp : s.playlist = some p)
    (hmax : penv.maxBaseNodeNum < 2 ^ 31)
    (hkeys : ∀ seg ∈ (told penv text).segments, ∀ info ∈ seg.key, info.Supported)
    {node : M3uBaseNode} (hnode : p.getNodeByIndex i = some node)
    (hseg : (told penv text).segment i = some seg) :
    (OpensAsTold keyServer s (told penv text) i ↔ KeysCareful (told penv text) seg₀ seg) ∧
      (OpensAsTold keyServer s (told penv text) i →
        ∀ s' t' i', OpensAsTold keyServer s' t' i' →
          (t'.segment i').map (·.key) = some seg.key → t'.number i' = (told penv text).number i →
          (s'.openSegment keyServer i').map (·.1) = (s.openSegment keyServer i).map (·.1)) := by
  constructor
  · have htells := m3uParse_tells hparse
    have hlt := head_pos_of_getNodeByIndex htells hnode
    have hmem : seg ∈ (told penv text).segments := List.mem_reverse.mp (List.mem_of_getElem? hseg)
    by_cases h0 : seg₀.Clear
    · exact opensAsTold_iff_of_clear hs h0 hseg
    · refine opensAsTold_iff_of_keys hserver hs h0 hp (htells.cipherNode hlt hseg) ?_ hseg
        (hkeys seg hmem)
      rcases htells.bound with hempty | hbound
      · rw [hempty] at hlt
        cases hlt
      · omega
  · rintro ⟨seg', o, hseg', hopen, hexp⟩ s' t' i' ⟨seg'', o', hseg'', hopen', hexp'⟩ hkey hnum
    obtain rfl : seg = seg' := Option.some_inj.mp (hseg.symm.trans hseg')
    rw [hseg'', Option.map_some, Option.some_inj] at hkey
    rw [hkey, hnum, hexp] at hexp'
    rw [hopen, hopen', hexp']

end

/-! ## A playlist with a key -/

instance (info : M3uKeyInfo) : Decidable info.Supported :=
  inferInstanceAs (Decidable (_ ∨ _ ∧ (_ ∨ _)))

/-- A text with a key and one segment, which has this number. -/
def keyText (number : String) : List Byte :=
  bytes "#EXTM3U\n#EXT-X-MEDIA-SEQUENCE:" ++ bytes number ++
    bytes "\n#EXT-X-KEY:METHOD=AES-128,URI=\"k\"\n#EXTINF:10,\na.ts\n"

def keyPlaylist (number : String) : M3UParser :=
  ((m3uParse tenSeconds (keyText number)).bind id).getD M3UParser.empty

/-- A server with a key of ones. -/
def onesServer (_ : List Byte) : List Byte := List.replicate 16 1

/-- A session that has loaded the text. -/
def keySession (number : String) : KeySession :=
  ⟨some (keyPlaylist number), some true, []⟩

def keySegment (number : String) : Segment :=
  ((told tenSeconds (keyText number)).segment 0).getD ⟨[], none, none⟩

/-- What the text with this number is to the session. -/
structure KeyFacts (number : String) : Prop where
  parse : m3uParse tenSeconds (keyText number) = some (some (keyPlaylist number))
  media : (keyPlaylist number).isVariantPlaylist = false
  keys : ∀ seg ∈ (told tenSeconds (keyText number)).segments, ∀ info ∈ seg.key, info.Supported
  set : KeySession.init.setSessionPara (keyPlaylist number) = some (keySession number)
  seg : (told tenSeconds (keyText number)).segment 0 = some (keySegment number)

instance (number : String) : Decidable (KeyFacts number) :=
  decidable_of_iff (_ ∧ _ ∧ _ ∧ _ ∧ _)
    ⟨fun h => ⟨h.1, h.2.1, h.2.2.1, h.2.2.2.1, h.2.2.2.2⟩,
      fun h => ⟨h.parse, h.media, h.keys, h.set, h.seg⟩⟩

theorem KeyFacts.reachable {number : String} (h : KeyFacts number) :
    (keySession number).Reachable onesServer (some (keySegment number)) := by
  have hload : (keySession number).Reachable onesServer _ :=
    .load .init h.parse h.media h.keys h.set
  rw [h.seg] at hload
  exact hload

theorem opensAsTold_keyText :
    (told tenSeconds (keyText "0")).number 0 = 0 ∧
      OpensAsTold onesServer (keySession "0") (told tenSeconds (keyText "0")) 0 := by
  -- One evaluation of the text for all that is read off it.
  obtain ⟨hfacts, hnum, hnode⟩ : KeyFacts "0" ∧ (told tenSeconds (keyText "0")).number 0 = 0 ∧
      (keyPlaylist "0").getNodeByIndex (0 : Nat) =
        some ((keyPlaylist "0").head.headD M3uBaseNode.zero) := by
    decide +kernel
  have h := opensAsTold_iff (fun _ => rfl) hfacts.reachable hfacts.parse rfl (by decide)
    hfacts.keys hnode hfacts.seg
  exact ⟨hnum, h.1.mpr ⟨Iff.rfl, fun _ _ => hnum⟩⟩

/-- The only segment of a playlist has the number 5 and a key without a start, and is decrypted
from the start 0. -/
theorem not_opensAsTold_keyText :
    m3uParse tenSeconds (keyText "5") = some (some (keyPlaylist "5")) ∧
      (keySession "5").Reachable onesServer (some (keySegment "5")) ∧
      (told tenSeconds (keyText "5")).number 0 = 5 ∧
      ((keySession "5").openSegment onesServer 0).map (·.1) =
        some (.aes (List.replicate 16 1) (List.replicate 16 0)) ∧
      ¬ OpensAsTold onesServer (keySession "5") (told tenSeconds (keyText "5")) 0 := by
  obtain ⟨hfacts, hnum, hopen⟩ : KeyFacts "5" ∧ (told tenSeconds (keyText "5")).number 0 = 5 ∧
      ((keySession "5").openSegment onesServer 0).map (·.1) =
        some (.aes (List.replicate 16 1) (List.replicate 16 0)) := by
    decide +kernel
  refine ⟨hfacts.parse, hfacts.reachable, hnum, hopen, ?_⟩
  rintro ⟨seg, o, hseg, ho, hexp⟩
  obtain rfl : keySegment "5" = seg := Option.some_inj.mp (hfacts.seg.symm.trans hseg)
  obtain rfl := Option.some_inj.mp (hopen.symm.trans ho)
  rw [hnum] at hexp
  revert hexp
  decide +kernel

end VendorAmlogic.Hls
