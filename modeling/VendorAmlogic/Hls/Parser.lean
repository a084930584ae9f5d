import VendorAmlogic.Hls.Playlist
import VendorAmlogic.Hls.Url

/-!
# The parser of playlists

`fast_parse` and `m3u_parse` of `hls_main/hls_m3uparser.c`, where memory does
not run out. Numbers with a fraction are read by a parameter, and so is what
the memory holds that the code does not set. There is no result where the code
would write past a buffer or through `NULL`. Date and time of a segment are
left out.
-/

namespace VendorAmlogic.Hls

open VendorAmlogic.Lib

/-- The URL of the playlist, `libplayer.hls.maxnodenum`, the duration in microseconds that a text
says (-1 when it is not a number), the host in a URL, and the string in a buffer before it is
set. -/
structure ParseEnv where
  baseUrl : List Byte
  maxBaseNodeNum : Int
  durationUs : List Byte → Int
  hostOf : List Byte → List Byte
  junk : List Byte

/-! ## Attributes -/

/-- A value in quotes, and what is behind it. -/
def quotedValue : List Byte → List Byte × List Byte
  | [] => ([], [])
  | [c] => if c = 0x22 then ([], []) else if c = 0x5c then ([], [c]) else ([c], [])
  | c :: d :: s =>
    if c = 0x22 then ([], d :: s)
    else if c = 0x5c then ((d :: (quotedValue s).1), (quotedValue s).2)
    else ((c :: (quotedValue (d :: s)).1), (quotedValue (d :: s)).2)

def isBreak (c : Byte) : Bool := isspace c || c == 0x2c

/-- `parseKeyValue`: the keys, with their `=`, and the values, in order. -/
def parseKeyValue : Nat → List Byte → List (List Byte × List Byte)
  | 0, _ => []
  | fuel + 1, str =>
    let key := str.dropWhile isBreak
    match strchr 0x3d key with
    | none => []
    | some ptr =>
      let value := match ptr.tail with
        | 0x22 :: s => quotedValue s
        | s => (s.takeWhile (!isBreak ·), s.dropWhile (!isBreak ·))
      (before key ptr ++ [0x3d], value.1) :: parseKeyValue fuel value.2

/-- The string in a field of this size, where a key that comes again counts. -/
def field (attrs : List (List Byte × List Byte)) (key : List Byte) (size : Nat) :
    Option (List Byte) :=
  (attrs.reverse.find? fun a => a.1 = key).map fun a => a.2.take (size - 1)

/-- The attributes behind the colon. -/
def attributes (line : List Byte) : Option (List (List Byte × List Byte)) :=
  (strchr 0x3a line).map fun s => parseKeyValue (s.length + 1) s.tail

/-! ## Tags -/

inductive Tag where
  | targetduration
  | mediaSequence
  | key
  | endlist
  | inf
  | discontinuity
  | media
  | streamInf
  | iFrameStreamInf
  | iFramesOnly
  | allowCache
  | version
  | programDateTime
  | byterange
  deriving DecidableEq

/-- The tags in the order in which they are tried. -/
def tags : List (List Byte × Tag) :=
  [(bytes "#EXT-X-TARGETDURATION", .targetduration),
    (bytes "#EXT-X-MEDIA-SEQUENCE", .mediaSequence),
    (bytes "#EXT-X-KEY", .key),
    (bytes "#EXT-X-ENDLIST", .endlist),
    (bytes "#EXTINF", .inf),
    (bytes "#EXT-X-DISCONTINUITY", .discontinuity),
    (bytes "#EXT-X-MEDIA", .media),
    (bytes "#EXT-X-STREAM-INF", .streamInf),
    (bytes "#EXT-X-I-FRAME-STREAM-INF", .iFrameStreamInf),
    (bytes "#EXT-X-I-FRAMES-ONLY", .iFramesOnly),
    (bytes "#EXT-X-ALLOW-CACHE", .allowCache),
    (bytes "#EXT-X-VERSION", .version),
    (bytes "#EXT-X-PROGRAM-DATE-TIME", .programDateTime),
    (bytes "#EXT-X-BYTERANGE", .byterange)]

def tagOf (line : List Byte) : Option Tag :=
  (tags.find? fun t => t.1.isPrefixOf line).map (·.2)

/-- `parseMetaData`. -/
def parseMetaData (line : List Byte) : Int :=
  match (strchr 0x3a line).bind fun s => strtol s.tail with
  | some (v, rest) => if rest = [] ∨ rest.head? = some 0x2c then i32 v else -1
  | none => -1

/-- `parseMetaDataDurationUs`. -/
def parseMetaDataDurationUs (env : ParseEnv) (line : List Byte) : Int :=
  match strchr 0x3a line with
  | some s => env.durationUs s.tail
  | none => -1

/-- A number that is the whole string, but for blanks around it. -/
def wholeNumber (s : List Byte) : Option Nat :=
  match strtoull (trim s) with
  | some (v, []) => some v
  | _ => none

/-- `parseByteRange`: the length and the offset. -/
def parseByteRange (line : List Byte) (curOffset : Nat) : Option (Nat × Nat) := do
  let s ← strchr 0x3a line
  match strchr 0x40 s.tail with
  | none => do
    let length ← wholeNumber s.tail
    some (length, curOffset)
  | some rest => do
    let length ← wholeNumber (before s.tail rest)
    let offset ← wholeNumber rest.tail
    some (length, offset)

/-- `parseCipherInfo`; the outer `none` is a `makeUrl` without a result. -/
def parseCipherInfo (env : ParseEnv) (line : List Byte) : Option (Option M3uKeyInfo) :=
  match attributes line with
  | none => some none
  | some attrs => do
    let url ← makeUrl env.hostOf maxUrlSize env.junk env.baseUrl
      ((field attrs (bytes "URI=") maxUrlSize).getD env.junk)
    some (some ⟨url, (field attrs (bytes "METHOD=") 10).getD [],
      (field attrs (bytes "IV=") 35).getD []⟩)

/-- `atoi`. -/
def atoi (s : List Byte) : Int := i32 (((strtol s).map (·.1)).getD 0)

/-- `get_mediaGroup_by_id`. -/
def M3UParser.getMediaGroupById (p : M3UParser) (type : MediaType) (groupId : List Byte) :
    Option M3uMediaGroup :=
  p.mediaGroupHead.find? fun g => g.type = type ∧ g.groupId = groupId

/-- The id of a group, when the playlist has it. -/
def groupField (p : M3UParser) (attrs : List (List Byte × List Byte)) (key : List Byte)
    (type : MediaType) (old : List Byte) : List Byte :=
  match field attrs key 128 with
  | none => old
  | some [] => old
  | some id => if (p.getMediaGroupById type id).isSome then id else old

/-- A field that is used when it is not empty. -/
def setField (value : Option (List Byte)) : Option (List Byte) := value.filter (· ≠ [])

/-- `parseStreamInf`. -/
def parseStreamInf (p : M3UParser) (line : List Byte) (node : M3uBaseNode) : M3uBaseNode :=
  match attributes (trim line) with
  | none => node
  | some attrs =>
    { node with
      bandwidth := ((setField (field attrs (bytes "BANDWIDTH=") 20)).map atoi).getD node.bandwidth
      programId := ((setField (field attrs (bytes "PROGRAM-ID=") 8)).map atoi).getD node.programId
      codec := (setField (field attrs (bytes "CODECS=") 128)).getD node.codec
      audioGroupId := groupField p attrs (bytes "AUDIO=") .audio node.audioGroupId
      videoGroupId := groupField p attrs (bytes "VIDEO=") .video node.videoGroupId
      subGroupId := groupField p attrs (bytes "SUBTITLES=") .subs node.subGroupId }

/-- The types of media groups. -/
def mediaTypeOf (type : List Byte) : Option MediaType :=
  if sameNoCase type (bytes "subtitles") then some .subs
  else if sameNoCase type (bytes "audio") then some .audio
  else if sameNoCase type (bytes "video") then some .video
  else if sameNoCase type (bytes "closed-captions") then some .cc
  else none

def isYes (value : Option (List Byte)) : Bool :=
  match value with
  | some v => sameNoCase (bytes "YES") v
  | none => false

/-- The item goes to the head of its group, which is made when it is not there. -/
def M3UParser.addMediaItem (p : M3UParser) (type : MediaType) (groupId : List Byte)
    (item : M3uMediaItem) : M3UParser :=
  let groups := if (p.getMediaGroupById type groupId).isSome then p.mediaGroupHead
    else ⟨type, groupId, -1, []⟩ :: p.mediaGroupHead
  { p with mediaGroupHead := groups.map fun g =>
    if g.type = type ∧ g.groupId = groupId then { g with itemHead := item :: g.itemHead } else g }

/-- The URL of an item, when it has one. -/
def mediaUrl (env : ParseEnv) : Option (List Byte) → Option (List Byte)
  | some uri => makeUrl env.hostOf maxUrlSize [] env.baseUrl uri
  | none => some []

/-- `parseMedia`: the inner `none` is that it fails. Whether `FORCED` is set is read off
`DEFAULT`. -/
def parseMedia (env : ParseEnv) (p : M3UParser) (line : List Byte) : Option (Option M3UParser) :=
  match attributes (trim line) with
  | none => some none
  | some attrs => do
    let language := setField (field attrs (bytes "LANGUAGE=") 128)
    let forced := setField (field attrs (bytes "FORCED=") 8)
    let dflt := field attrs (bytes "DEFAULT=") 8
    let uri := setField (field attrs (bytes "URI=") 1024)
    let url ← mediaUrl env uri
    let item : M3uMediaItem :=
      ⟨(field attrs (bytes "NAME=") 128).getD [], url, language.getD [],
        isYes (field attrs (bytes "AUTOSELECT=") 8), isYes dflt, forced.isSome && isYes dflt,
        language.isSome, uri.isSome⟩
    match setField (field attrs (bytes "TYPE=") 20), setField (field attrs (bytes "GROUP-ID=") 128)
      with
    | some type, some groupId =>
      match mediaTypeOf type with
      | some type => some (some (p.addMediaItem type groupId item))
      | none => some none
    | _, _ => some none

/-! ## `fast_parse` -/

/-- The locals of `fast_parse`; `keyinfo` is there when `hasKey` is set. -/
structure ParseState where
  parser : M3UParser
  lineNo : Nat
  index : Int
  isVariantPlaylist : Bool
  isIframeOnly : Bool
  keyinfo : Option M3uKeyInfo
  lastUri : List Byte
  lastUriIndex : Int
  segmentRangeOffset : Nat
  tmpNode : M3uBaseNode
  tmpIframeNode : M3uIframeNode

/-- Whether the loop goes on, is left, or the function returns -1. -/
inductive Flow where
  | next
  | leave
  | fail
  deriving DecidableEq

/-- Not of a variant playlist, else the loop is left. -/
def ParseState.media (st : ParseState) (st' : ParseState) : Option (Flow × ParseState) :=
  if st.isVariantPlaylist then
    some (.leave, { st with parser := { st.parser with isInitcheck := false } })
  else some (.next, st')

def lineSizeMax : Nat := 1024 * 16

/-- What a line with a tag does. -/
def parseTag (env : ParseEnv) (st : ParseState) (line : List Byte) :
    Tag → Option (Flow × ParseState)
  | .targetduration =>
    if st.isVariantPlaylist then some (.fail, st)
    else some (.next,
      { st with parser := { st.parser with targetDuration := parseMetaData line } })
  | .mediaSequence =>
    if st.isVariantPlaylist then some (.fail, st)
    else some (.next,
      { st with tmpNode := { st.tmpNode with mediaSequence := parseMetaData line } })
  | .key =>
    if st.isVariantPlaylist then some (.fail, st)
    else do
      match ← parseCipherInfo env line with
      | none =>
        some (.leave, { st with
          parser := { st.parser with isInitcheck := false }
          keyinfo := none })
      | some info =>
        some (.next, { st with
          keyinfo := some info
          tmpNode := { st.tmpNode with cipherInfo := true } })
  | .endlist => some (.next, { st with parser := { st.parser with isComplete := true } })
  | .inf =>
    st.media (if st.isIframeOnly then
      { st with tmpIframeNode :=
          { st.tmpIframeNode with durationUs := parseMetaDataDurationUs env line } }
    else { st with tmpNode := { st.tmpNode with durationUs := parseMetaDataDurationUs env line } })
  | .discontinuity => st.media { st with tmpNode := { st.tmpNode with discontinue := true } }
  | .media => do
    match ← parseMedia env st.parser line with
    | none => some (.leave, { st with parser := { st.parser with isInitcheck := false } })
    | some parser => some (.next, { st with parser := parser })
  | .streamInf =>
    some (.next, { st with
      tmpNode := parseStreamInf st.parser line st.tmpNode
      isVariantPlaylist := true })
  | .iFrameStreamInf =>
    match (attributes (trim line)).bind fun attrs =>
        setField (field attrs (bytes "URI=") maxUrlSize) with
    | none => some (.next, st)
    | some uri => do
      let node ← st.parser.getNodeByIndex (st.index - 1)
      let url ← makeUrl env.hostOf maxUrlSize node.iframeUrl env.baseUrl uri
      some (.next, { st with parser := { st.parser with head := st.parser.head.map fun n =>
        if n.index = node.index then { n with iframeUrl := url } else n } })
  | .iFramesOnly => some (.next, { st with isIframeOnly := true })
  | .allowCache =>
    some (.next, { st with tmpNode := { st.tmpNode with
      allowCache := st.tmpNode.allowCache ||
        startsNoCase (bytes "YES") (line.drop (bytes "#EXT-X-ALLOW-CACHE:").length) } })
  | .version => some (.next, st)
  | .programDateTime => if st.isVariantPlaylist then some (.fail, st) else some (.next, st)
  | .byterange =>
    st.media (match parseByteRange line st.segmentRangeOffset with
      | none => st
      | some (length, offset) =>
        let st := { st with segmentRangeOffset := u64 ((offset : Int) + length) }
        if st.isIframeOnly then
          { st with tmpIframeNode := { st.tmpIframeNode with
            fileSize := i64 ((length : Int) + offset)
            readOffset := i64 offset } }
        else
          { st with tmpNode :=
              { st.tmpNode with fileSize := i64 length, readOffset := i64 offset } })

/-- A node of the list; `add_node_to_head` takes one more than the maximum. -/
def M3UParser.addNode (p : M3UParser) (maxBaseNodeNum : Int) (node : M3uBaseNode) : M3UParser :=
  if p.baseNodeNum > maxBaseNodeNum then p
  else { p with head := node :: p.head, baseNodeNum := p.baseNodeNum + 1 }

/-- The `uri` of an I frame, which is set when the line is not the last one again. -/
def iframeUri (env : ParseEnv) (st : ParseState) (line : List Byte) : Option (Option (List Byte)) :=
  if st.lastUri = line then some st.tmpIframeNode.uri
  else (makeUrl env.hostOf maxUrlSize [] env.baseUrl line).map fun url =>
    some (strlcpy maxUrlSize url)

/-- The line is the URI of an I frame. -/
def parseIframeUri (env : ParseEnv) (st : ParseState) (line : List Byte) : Option ParseState := do
  let p := st.parser
  let same : Bool := st.lastUri = line
  let uri ← iframeUri env st line
  let lastUriIndex := if same then st.lastUriIndex else st.index
  let node := { st.tmpIframeNode with
    startUs := if st.isVariantPlaylist then st.tmpIframeNode.startUs else p.durationUs
    index := st.index
    uri := uri
    urlIndex := lastUriIndex }
  some { st with
    parser := { p with
      durationUs := if st.isVariantPlaylist then p.durationUs
        else i64 (p.durationUs + node.durationUs)
      iframeNodeList := p.iframeNodeList ++ [node] }
    lastUri := if same then st.lastUri else strlcpy maxUrlSize line
    lastUriIndex := lastUriIndex
    tmpIframeNode := ⟨0, 0, -1, -1, 0, 0, none⟩
    index := st.index + 1 }

/-- The line is the URI of a segment or of a stream. -/
def parseUri (env : ParseEnv) (st : ParseState) (line : List Byte) : Option ParseState := do
  let p := st.parser
  let url ← makeUrl env.hostOf maxUrlSize st.tmpNode.fileUrl env.baseUrl line
  let node := { st.tmpNode with
    key := st.keyinfo
    startUs := if st.isVariantPlaylist then st.tmpNode.startUs else p.durationUs
    fileUrl := url
    index := st.index }
  some { st with
    parser := ({ p with
      durationUs := if st.isVariantPlaylist then p.durationUs
        else i64 (p.durationUs + node.durationUs)
      }).addNode env.maxBaseNodeNum node
    keyinfo := none
    tmpNode := M3uBaseNode.zero
    index := st.index + 1 }

/-- What a line does by its tag. -/
def parseTags (env : ParseEnv) (st : ParseState) (line : List Byte) : Option (Flow × ParseState) :=
  match tagOf line with
  | none => some (.next, st)
  | some tag => parseTag env st line tag

/-- What a line does that is not a comment. -/
def parseNode (env : ParseEnv) (st : ParseState) (line : List Byte) : Option ParseState :=
  if line.head? = some 0x23 then some st
  else if st.isIframeOnly then parseIframeUri env st line
  else parseUri env st line

/-- The first line was there. -/
def ParseState.extm3u (st : ParseState) : ParseState :=
  if st.lineNo = 0 then { st with parser := { st.parser with isExtm3u := true } } else st

/-- One round of the loop. -/
def parseLine (env : ParseEnv) (st : ParseState) (line : List Byte) :
    Option (Flow × ParseState) :=
  if line.length ≥ lineSizeMax then none
  else if line = [] then some (.next, st)
  else if st.lineNo = 0 ∧ (bytes "#EXTM3U").isPrefixOf line = false then some (.leave, st)
  else do
    let r ← parseTags env st.extm3u line
    if r.1 ≠ .next then some r
    else do
      let st ← parseNode env r.2 line
      some (.next, { st with lineNo := st.lineNo + 1 })

/-- The loop over the lines. -/
def parseLines (env : ParseEnv) : List (List Byte) → ParseState → Option (Flow × ParseState)
  | [], st => some (.next, st)
  | line :: lines, st => do
    let r ← parseLine env st line
    if r.1 = .next then parseLines env lines r.2 else some r

/-- A line without the carriage return at its end. -/
def cutReturn (line : List Byte) : List Byte :=
  if line.getLast? = some 0x0d then line.dropLast else line

/-- The lines of a text, which end with a line feed or a zero byte. -/
def linesOf : List Byte → List (List Byte)
  | [] => [[]]
  | c :: text =>
    if c = 0x0a ∨ c = 0 then [] :: linesOf text
    else match linesOf text with
      | line :: lines => (c :: line) :: lines
      | [] => [[c]]

/-- The mark of the byte order is cut. -/
def cutBom (text : List Byte) : List Byte :=
  if [0xef, 0xbb, 0xbf].isPrefixOf text then text.drop 3
  else if [0xff, 0xfe].isPrefixOf text ∨ [0xfe, 0xff].isPrefixOf text then text.drop 2
  else text

def M3UParser.empty : M3UParser := ⟨false, false, false, true, 0, 0, 0, [], [], []⟩

def ParseState.init : ParseState where
  parser := M3UParser.empty
  lineNo := 0
  index := 0
  isVariantPlaylist := false
  isIframeOnly := false
  keyinfo := none
  lastUri := []
  lastUriIndex := -1
  segmentRangeOffset := 0
  tmpNode := { M3uBaseNode.zero with fileSize := -1, durationUs := -1 }
  tmpIframeNode := ⟨0, -1, -1, -1, 0, -1, none⟩

/-- `m3u_parse`; the inner `none` is that it returns -1. -/
def m3uParse (env : ParseEnv) (text : List Byte) : Option (Option M3UParser) := do
  let r ← parseLines env ((linesOf (cutBom text)).map cutReturn) ParseState.init
  if r.1 = .fail then some none
  else some (some { r.2.parser with isVariantPlaylist := r.2.isVariantPlaylist })

end VendorAmlogic.Hls
