import VendorAmlogic.Lib.Bytes
import VendorAmlogic.Lib.Run

/-!
# The player's cache file

`player_cache_file.c` keeps a copy of a stream in a file, and a map with one
bit for each page of 4096 bytes that says whether the page has been written.
`cachefile_write` stores bytes and marks pages, `cachefile_read` gives back
what the map says is there. A run of the two is followed here with a record of
the bytes stored so far, which is what a read should return.
-/

namespace VendorAmlogic.CacheFile

open VendorAmlogic.Lib

/-! ## The source -/

/-- What the two functions use of `struct cache_file`. `map` is the memory from `cache_map` on: the
map is its first `mapSize` bytes, and what stands around them is of no meaning. -/
structure Cache where
  mapSize : Nat
  map : Int → Byte
  file : List Byte
  lastWriteOff : Nat

/-- `SET_PAGE_VALID`. -/
def setPageValid (map : Int → Byte) (n : Int) : Int → Byte :=
  Function.update map (n / 8) (map (n / 8) ||| (1#8 <<< (n % 8).toNat))

/-- The loops that count the ones at the low end of an `unsigned int`. -/
def lowOnes : Nat → Nat → Nat
  | 0, _ => 0
  | bits + 1, mapInt => if mapInt % 2 = 1 then lowOnes bits (mapInt / 2) + 1 else 0

/-- The search in bytes from `byte` on: the full bytes, of which it takes at most `left`, and the
pages it counts in the byte that ends it. -/
def searchBytes (map : Int → Byte) (mapSize : Nat) : Nat → Int → Nat × Nat
  | 0, byte => if byte < mapSize then (0, lowOnes 32 (map byte).toNat) else (0, 0)
  | left + 1, byte =>
    if byte < mapSize then
      if map byte = 0xff then
        let r := searchBytes map mapSize left (byte + 1)
        (r.1 + 1, r.2)
      else (0, lowOnes 32 (map byte).toNat)
    else (0, 0)

/-- `valid_pages` at `search_end`. -/
def validPages (map : Int → Byte) (mapSize : Nat) (cacheBits searchPages : Int) : Nat :=
  let cacheByte := cacheBits / 8
  let cacheBit := (cacheBits % 8).toNat
  let most := (1 + searchPages / 8).toNat
  if cacheBit ≠ 0 then
    let valid := lowOnes 32 ((map cacheByte).toNat >>> cacheBit)
    if 8 - cacheBit ≠ valid then valid
    else
      let r := searchBytes map mapSize most (cacheByte + 1)
      valid + r.2 + 8 * r.1
  else
    let r := searchBytes map mapSize most cacheByte
    r.2 + 8 * r.1

/-- `map_searce_valid_bytes`. -/
def mapSearceValidBytes (map : Int → Byte) (mapSize off : Nat) (maxSize : Int) : Int :=
  let searchPages := maxSize / 4096
  let cacheBits := i32 ((off / 4096 : Nat) : Int)
  let pageOff := off % 4096
  if (mapSize : Int) < cacheBits / 8 then 0
  else
    let valid := validPages map mapSize cacheBits searchPages
    if searchPages ≤ valid then maxSize else max 0 (valid * 4096 - pageOff)

/-- `cachefile_read`: what it returns, and the bytes it puts into the buffer. -/
def cachefileRead (c : Cache) (off : Nat) (size : Int) : Int × List Byte :=
  let readedLen := mapSearceValidBytes c.map c.mapSize off size
  if 0 < readedLen then
    let data := (c.file.drop off).take (min readedLen size).toNat
    (data.length, data)
  else (readedLen, [])

/-- The bytes a `write` of `buf` stores: all, some, or none of them; `none` when it fails. -/
def written (buf : List Byte) : Option Nat → List Byte
  | none => []
  | some n => buf.take n

/-- `x & ~(CACHE_PAGE_SIZE - 1)`. -/
def lowAligned (x : Int) : Int := x / 4096 * 4096

/-- `data_off` and `len` before the loop that marks pages. -/
def toMark (lastWriteOff off : Nat) (len : Int) : Int × Int :=
  let dataOff := i32 off
  let pageOff := dataOff % 4096
  if 0 < pageOff then
    if lastWriteOff = off then
      (lowAligned (i32 (lowAligned (i32 (dataOff - 4096)) + 4096)), i32 (len + pageOff))
    else (lowAligned (i32 (dataOff + 4096)), len)
  else (dataOff, len)

/-- The loop that marks pages, by its number of rounds. -/
def markPages (map : Int → Byte) : Nat → Int → (Int → Byte)
  | 0, _ => map
  | n + 1, dataOff => markPages (setPageValid map (dataOff / 4096)) n (i32 (dataOff + 4096))

/-- `len`, as `write` returns it. -/
def storedLen (buf : List Byte) (wrote : Option Nat) : Int :=
  if wrote = none then -1 else (written buf wrote).length

/-- The map after a write at `off` of which `len` bytes were stored. -/
def markWritten (map : Int → Byte) (lastWriteOff off : Nat) (len : Int) : Int → Byte :=
  let r := toMark lastWriteOff off len
  markPages map (r.2 / 4096).toNat r.1

/-- `cachefile_write`; `wrote` is the outcome of the `write` in it. -/
def cachefileWrite (c : Cache) (off : Nat) (buf : List Byte) (wrote : Option Nat) : Cache :=
  let data := written buf wrote
  { c with
    file := if data = [] then c.file else overwrite c.file off data
    map := markWritten c.map c.lastWriteOff off (storedLen buf wrote)
    lastWriteOff := off + buf.length }

/-! ## Runs -/

inductive Op where
  | write (off : Nat) (buf : List Byte) (wrote : Option Nat)
  | read (off : Nat) (size : Int)

/-- A cache file with the byte most recently stored at each offset. -/
structure State where
  cache : Cache
  stored : Nat → Option Byte

/-- The record after storing `data` at `off`. -/
def store (stored : Nat → Option Byte) (off : Nat) (data : List Byte) : Nat → Option Byte :=
  fun x => if off ≤ x ∧ x < off + data.length then data[x - off]? else stored x

def step (s : State) : Op → State × (Int × List Byte)
  | .write off buf wrote =>
    (⟨cachefileWrite s.cache off buf wrote, store s.stored off (written buf wrote)⟩, (0, []))
  | .read off size => (s, cachefileRead s.cache off size)

/-- An empty cache map over a file of any contents; the memory around the map is arbitrary. -/
structure Opened (c : Cache) : Prop where
  map_zero : ∀ i : Nat, i < c.mapSize → c.map i = 0
  lastWriteOff : c.lastWriteOff = 0

def start (c : Cache) : State := ⟨c, fun _ => none⟩

/-- A read returns stored bytes only, as they were stored last. -/
def ReadsStored (s : State) : Op → Prop
  | .read off size =>
    ∀ (i : Nat) (b : Byte), (cachefileRead s.cache off size).2[i]? = some b →
      s.stored (off + i) = some b
  | .write .. => True

/-! ## The map -/

/-- The mark of page `n`. -/
def marked (map : Int → Byte) (n : Nat) : Bool := (map ((n / 8 : Nat) : Int)).getLsbD (n % 8)

theorem marked_setPageValid (map : Int → Byte) (n p : Nat) :
    marked (setPageValid map n) p = (marked map p || p == n) := by
  have hdiv : (n : Int) / 8 = ((n / 8 : Nat) : Int) := by omega
  have hmod : ((n : Int) % 8).toNat = n % 8 := by omega
  have hp : p % 8 < 8 := Nat.mod_lt _ (by omega)
  rw [marked, marked, setPageValid, hdiv, hmod]
  by_cases h : p / 8 = n / 8
  · rw [h, Function.update_self, BitVec.getLsbD_or]
    congr 1
    rw [BitVec.getLsbD_shiftLeft, BitVec.getLsbD_one, Bool.eq_iff_iff]
    simp only [Bool.and_eq_true, Bool.not_eq_true', decide_eq_true_eq, decide_eq_false_iff_not,
      beq_iff_eq]
    omega
  · rw [Function.update_of_ne (by omega)]
    have hne : (p == n) = false := by
      rw [beq_eq_false_iff_ne]
      rintro rfl
      exact h rfl
    rw [hne, Bool.or_false]

/-- A round of the loop marks the next page. -/
theorem marked_markPages (map : Int → Byte) (n first : Nat) (h : (first + n) * 4096 < 2 ^ 31)
    (p : Nat) :
    marked (markPages map n (first * 4096 : Nat)) p = true ↔
      marked map p = true ∨ (first ≤ p ∧ p < first + n) := by
  induction n generalizing map first with
  | zero =>
    have hnone : ¬ (first ≤ p ∧ p < first + 0) := by omega
    rw [markPages, or_iff_left hnone]
  | succ n ih =>
    have hlt : (first + 1 + n) * 4096 < 2 ^ 31 := by rwa [Nat.add_assoc, Nat.add_comm 1 n]
    have hpage : ((first * 4096 : Nat) : Int) / 4096 = first := by omega
    have hnext : i32 (((first * 4096 : Nat) : Int) + 4096) = (((first + 1) * 4096 : Nat) : Int) := by
      rw [i32_eq_self (by omega) (by omega)]
      omega
    have hrest := ih (setPageValid map first) (first + 1) hlt
    have hsplit : first ≤ p ∧ p < first + (n + 1) ↔ p = first ∨ (first + 1 ≤ p ∧ p < first + 1 + n) := by
      omega
    rw [markPages, hpage, hnext, hrest, marked_setPageValid, Bool.or_eq_true, beq_iff_eq, or_assoc,
      hsplit]

theorem testBit_of_lt_lowOnes {bits m i : Nat} (h : i < lowOnes bits m) : m.testBit i = true := by
  induction bits generalizing m i with
  | zero => exact absurd h (Nat.not_lt_zero _)
  | succ bits ih =>
    rw [lowOnes] at h
    split at h
    · rename_i hodd
      cases i with
      | zero => simpa using hodd
      | succ i =>
        rw [Nat.testBit_succ]
        exact ih (by omega)
    · exact absurd h (Nat.not_lt_zero _)

/-- The ones counted in a byte are marks of its pages. -/
theorem marked_of_lt_lowOnes {map : Int → Byte} {byte bits bit i : Nat} (hbit : bit < 8)
    (h : i < lowOnes bits ((map byte).toNat >>> bit)) :
    bit + i < 8 ∧ marked map (8 * byte + bit + i) = true := by
  have htest := testBit_of_lt_lowOnes h
  rw [Nat.testBit_shiftRight] at htest
  have hlt : bit + i < 8 := by
    by_contra hge
    have := Nat.testBit_lt_two_pow
      (lt_of_lt_of_le (map byte).isLt (Nat.pow_le_pow_right (by omega) (Nat.le_of_not_lt hge)))
    simp [this] at htest
  refine ⟨hlt, ?_⟩
  rw [marked, show (8 * byte + bit + i) / 8 = byte by omega,
    show (8 * byte + bit + i) % 8 = bit + i by omega]
  exact htest

/-- The pages counted in the byte that ends the search. -/
theorem marked_of_lastByte {map : Int → Byte} {mapSize byte i : Nat} (hbyte : (byte : Int) < mapSize)
    (hi : i < lowOnes 32 (map byte).toNat) :
    8 * byte + i < 8 * mapSize ∧ marked map (8 * byte + i) = true := by
  have hshift : i < lowOnes 32 ((map byte).toNat >>> 0) := hi
  obtain ⟨hlt, hm⟩ := marked_of_lt_lowOnes (by omega) hshift
  exact ⟨by omega, hm⟩

theorem marked_of_fullByte {map : Int → Byte} {byte i : Nat} (hfull : map byte = 0xff) (hi : i < 8) :
    marked map (8 * byte + i) = true := by
  rw [marked, show (8 * byte + i) / 8 = byte by omega, show (8 * byte + i) % 8 = i by omega, hfull]
  interval_cases i <;> rfl

/-- The search in bytes counts marked pages of the map only. -/
theorem marked_of_searchBytes {map : Int → Byte} {mapSize left byte i : Nat}
    (h : i < (searchBytes map mapSize left byte).2 + 8 * (searchBytes map mapSize left byte).1) :
    8 * byte + i < 8 * mapSize ∧ marked map (8 * byte + i) = true := by
  induction left generalizing byte i with
  | zero =>
    rw [searchBytes] at h
    split at h
    · rename_i hbyte
      exact marked_of_lastByte hbyte (by simpa using h)
    · simp at h
  | succ left ih =>
    rw [searchBytes] at h
    split at h
    · rename_i hbyte
      split at h
      · rename_i hfull
        by_cases hi : i < 8
        · exact ⟨by omega, marked_of_fullByte hfull hi⟩
        · obtain ⟨j, rfl⟩ := Nat.exists_eq_add_of_le (Nat.le_of_not_lt hi)
          rw [show (byte : Int) + 1 = ((byte + 1 : Nat) : Int) by omega] at h
          dsimp only at h
          have hrest := @ih (byte + 1) j (by omega)
          rwa [show 8 * (byte + 1) + j = 8 * byte + (8 + j) by omega] at hrest
      · exact marked_of_lastByte hbyte (by simpa using h)
    · simp at h

/-- The search counts marked pages of the map, unless it starts in the byte behind the map. -/
theorem marked_of_validPages {map : Int → Byte} {mapSize page i : Nat} {searchPages : Int}
    (hpage : page / 8 < mapSize ∨ (page / 8 = mapSize ∧ page % 8 = 0))
    (h : i < validPages map mapSize page searchPages) :
    page + i < 8 * mapSize ∧ marked map (page + i) = true := by
  have hbyte : (page : Int) / 8 = ((page / 8 : Nat) : Int) := by omega
  have hbit : ((page : Int) % 8).toNat = page % 8 := by omega
  have hlt : page % 8 < 8 := Nat.mod_lt _ (by omega)
  rw [validPages, hbyte, hbit] at h
  dsimp only at h
  split at h
  · rename_i hbit0
    have hfirst {i : Nat} (hi : i < lowOnes 32 ((map ((page / 8 : Nat) : Int)).toNat >>> (page % 8))) :
        page + i < 8 * mapSize ∧ marked map (page + i) = true := by
      obtain ⟨hin, hm⟩ := marked_of_lt_lowOnes hlt hi
      rw [show 8 * (page / 8) + page % 8 + i = page + i by omega] at hm
      exact ⟨by omega, hm⟩
    split at h
    · exact hfirst h
    · rename_i hall
      rw [not_not] at hall
      by_cases hi : i < 8 - page % 8
      · exact hfirst (hall ▸ hi)
      · obtain ⟨j, rfl⟩ := Nat.exists_eq_add_of_le (Nat.le_of_not_lt hi)
        rw [show ((page / 8 : Nat) : Int) + 1 = ((page / 8 + 1 : Nat) : Int) by omega, ← hall,
          Nat.add_assoc, Nat.add_lt_add_iff_left] at h
        have hrest := marked_of_searchBytes h
        rwa [show 8 * (page / 8 + 1) + j = page + (8 - page % 8 + j) by omega] at hrest
  · have hrest := marked_of_searchBytes h
    rwa [show 8 * (page / 8) + i = page + i by omega] at hrest

/-! ## Careful runs -/

/-- The first page a write at `off` marks: the page of `off` if it starts there or the write goes on
where the last one ended, else the next page. -/
def firstPage (lastWriteOff off : Nat) : Nat :=
  if off % 4096 = 0 ∨ lastWriteOff = off then off / 4096 else off / 4096 + 1

/-- The number of pages a write marks that stores `len` bytes. -/
def pageCount (lastWriteOff off len : Nat) : Nat :=
  if lastWriteOff = off then (off % 4096 + len) / 4096 else len / 4096

/-- The bytes of the pages a write marks. -/
def MarkedRange (lastWriteOff off len x : Nat) : Prop :=
  firstPage lastWriteOff off * 4096 ≤ x ∧
    x < (firstPage lastWriteOff off + pageCount lastWriteOff off len) * 4096

/-- A write that marks pages is within the range of `int` and within the map, and its marks cover,
apart from the bytes it stores itself, only bytes stored before. -/
def CarefulWrite (s : State) (off len : Nat) : Prop :=
  pageCount s.cache.lastWriteOff off len = 0 ∨
    (off + len + 4096 ≤ 2 ^ 31 ∧
      firstPage s.cache.lastWriteOff off + pageCount s.cache.lastWriteOff off len ≤
        8 * s.cache.mapSize ∧
      ∀ x, MarkedRange s.cache.lastWriteOff off len x → x < off ∨ off + len ≤ x →
        (s.stored x).isSome)

/-- A page of the map with its mark set. -/
def Valid (c : Cache) (page : Nat) : Prop := page < 8 * c.mapSize ∧ marked c.map page = true

/-- The page number of a read is an `int`, the read does not start in the byte behind the map, and
when as many pages from `off` on are valid as `size` has whole pages, what it asks for behind these
pages has been stored or is behind the end of the file. -/
def CarefulRead (s : State) (off : Nat) (size : Int) : Prop :=
  off < 2 ^ 43 ∧ (off / 32768 = s.cache.mapSize → off / 4096 % 8 = 0) ∧
    (off / 32768 ≤ s.cache.mapSize →
      (∀ i : Nat, i < size / 4096 → Valid s.cache (off / 4096 + i)) →
      ∀ x : Nat, off ≤ x → (off / 4096 + size / 4096) * 4096 ≤ x → x < off + size →
        x < s.cache.file.length → (s.stored x).isSome)

def Careful (s : State) : Op → Prop
  | .write off buf wrote => CarefulWrite s off (written buf wrote).length
  | .read off size => CarefulRead s off size

/-- Valid pages have been stored, and the file holds what has been stored. -/
structure Sound (s : State) : Prop where
  valid : ∀ page, Valid s.cache page → ∀ x, x / 4096 = page → (s.stored x).isSome
  file : ∀ x b, s.stored x = some b → s.cache.file[x]? = some b

/-! ### Writes -/

theorem i32_emod_page (off : Nat) : i32 off % 4096 = ((off % 4096 : Nat) : Int) := by
  have hdvd : (4096 : Int) ∣ ((2 ^ 32 : Nat) : Int) := ⟨2 ^ 20, by norm_num⟩
  rw [i32, ← Int.emod_emod_of_dvd _ hdvd, Int.bmod_emod, Int.emod_emod_of_dvd _ hdvd]
  omega

/-- The rounds of the marking loop. -/
theorem rounds_eq {last off k : Nat} {len : Int} (hlen : len = k ∨ (k = 0 ∧ len = -1))
    (h : off % 4096 + k < 2 ^ 31) : ((toMark last off len).2 / 4096).toNat = pageCount last off k := by
  have hpage : off % 4096 < 4096 := Nat.mod_lt _ (by omega)
  rw [toMark, i32_emod_page, pageCount]
  split
  · split
    · dsimp only
      rw [i32_eq_self (by omega) (by omega)]
      omega
    · dsimp only
      omega
  · dsimp only
    split <;> omega

/-- Where the marking loop starts. -/
theorem toMark_fst {last off : Nat} {len : Int} (h : off + 4096 ≤ 2 ^ 31) :
    (toMark last off len).1 = ((firstPage last off * 4096 : Nat) : Int) := by
  have hpage : off % 4096 < 4096 := Nat.mod_lt _ (by omega)
  have hoff : i32 off = off := i32_eq_self (by omega) (by omega)
  rw [toMark, i32_emod_page, hoff, firstPage]
  split
  · split
    · dsimp only
      rw [if_pos (Or.inr ‹_›), i32_eq_self (x := (off : Int) - 4096) (by omega) (by omega)]
      unfold lowAligned
      rw [i32_eq_self (by omega) (by omega)]
      omega
    · dsimp only
      rw [if_neg (by omega), i32_eq_self (by omega) (by omega), lowAligned]
      omega
  · dsimp only
    rw [if_pos (by omega)]
    omega

theorem storedLen_cases (buf : List Byte) (wrote : Option Nat) :
    storedLen buf wrote = (written buf wrote).length ∨
      ((written buf wrote).length = 0 ∧ storedLen buf wrote = -1) := by
  cases wrote with
  | none => exact Or.inr ⟨rfl, rfl⟩
  | some n => exact Or.inl rfl

theorem markWritten_eq (map : Int → Byte) (last off : Nat) (len : Int) :
    markWritten map last off len =
      markPages map ((toMark last off len).2 / 4096).toNat (toMark last off len).1 := by
  rw [markWritten]

@[simp] theorem map_cachefileWrite (c : Cache) (off : Nat) (buf : List Byte) (wrote : Option Nat) :
    (cachefileWrite c off buf wrote).map =
      markWritten c.map c.lastWriteOff off (storedLen buf wrote) := by
  rw [cachefileWrite]

@[simp] theorem mapSize_cachefileWrite (c : Cache) (off : Nat) (buf : List Byte)
    (wrote : Option Nat) : (cachefileWrite c off buf wrote).mapSize = c.mapSize := by
  rw [cachefileWrite]

/-- The pages a careful write leaves marked. -/
theorem marked_of_write {s : State} {off page : Nat} {buf : List Byte} {wrote : Option Nat}
    (h : CarefulWrite s off (written buf wrote).length)
    (hm : marked (markWritten s.cache.map s.cache.lastWriteOff off (storedLen buf wrote)) page =
      true) :
    marked s.cache.map page = true ∨
      (firstPage s.cache.lastWriteOff off ≤ page ∧ page < firstPage s.cache.lastWriteOff off +
        pageCount s.cache.lastWriteOff off (written buf wrote).length) := by
  have hlen := storedLen_cases buf wrote
  rw [markWritten_eq] at hm
  rcases h with hnone | ⟨hint, -, -⟩
  · have hcount : off % 4096 + (written buf wrote).length < 2 ^ 31 := by
      unfold pageCount at hnone
      split at hnone <;> omega
    rw [rounds_eq hlen hcount, hnone, markPages] at hm
    exact Or.inl hm
  · have hend : (firstPage s.cache.lastWriteOff off + pageCount s.cache.lastWriteOff off
        (written buf wrote).length) * 4096 < 2 ^ 31 := by
      unfold firstPage pageCount
      split <;> split <;> omega
    rwa [rounds_eq hlen (by omega), toMark_fst (by omega), marked_markPages _ _ _ hend] at hm

theorem store_inside {stored : Nat → Option Byte} {off x : Nat} {data : List Byte} (h : off ≤ x)
    (h' : x < off + data.length) : store stored off data x = data[x - off]? := if_pos ⟨h, h'⟩

theorem store_outside {stored : Nat → Option Byte} {off x : Nat} {data : List Byte}
    (h : x < off ∨ off + data.length ≤ x) : store stored off data x = stored x :=
  if_neg (by omega)

theorem isSome_store {stored : Nat → Option Byte} {off x : Nat} {data : List Byte}
    (h : x < off ∨ off + data.length ≤ x → (stored x).isSome) : (store stored off data x).isSome := by
  by_cases hin : off ≤ x ∧ x < off + data.length
  · rw [store_inside hin.1 hin.2, List.getElem?_eq_getElem (by omega)]
    rfl
  · rw [store_outside (by omega)]
    exact h (by omega)

/-- A file that holds what has been stored still does after a write. -/
theorem file_overwrite {stored : Nat → Option Byte} {file data : List Byte} {off : Nat}
    (h : ∀ x b, stored x = some b → file[x]? = some b) (x : Nat) (b : Byte)
    (hx : store stored off data x = some b) :
    (if data = [] then file else overwrite file off data)[x]? = some b := by
  split
  · rename_i hnil
    rw [hnil, store_outside (by simp; omega)] at hx
    exact h x b hx
  · by_cases hin : off ≤ x ∧ x < off + data.length
    · rw [getElem?_overwrite_inside hin.1 hin.2, ← hx, store_inside hin.1 hin.2]
    · have hout : x < off ∨ off + data.length ≤ x := by omega
      rw [store_outside hout] at hx
      have hfile := h x b hx
      rw [getElem?_overwrite_outside hout (List.getElem?_eq_some_iff.1 hfile).1, hfile]

theorem sound_write {s : State} {off : Nat} {buf : List Byte} {wrote : Option Nat} (h : Sound s)
    (hc : CarefulWrite s off (written buf wrote).length) : Sound (step s (.write off buf wrote)).1 := by
  rw [step]
  refine ⟨?_, ?_⟩
  · intro page hv x hx
    rw [Valid, mapSize_cachefileWrite, map_cachefileWrite] at hv
    rcases marked_of_write hc hv.2 with hold | hnew
    · exact isSome_store fun _ => h.valid page ⟨hv.1, hold⟩ x hx
    · rcases hc with hnone | ⟨-, -, hmarks⟩
      · omega
      · exact isSome_store fun hout => hmarks x ⟨by omega, by omega⟩ hout
  · exact file_overwrite h.file

/-! ### Reads -/

/-- What a careful read returns is stored: it lies in the valid pages the search has counted, or
behind them, where the read is promised to be careful. -/
theorem isSome_of_search {s : State} {off x : Nat} {size : Int} (h : Sound s)
    (hc : CarefulRead s off size) (hx : off ≤ x) (hfile : x < s.cache.file.length)
    (hlt : x < off + min (mapSearceValidBytes s.cache.map s.cache.mapSize off size) size) :
    (s.stored x).isSome := by
  obtain ⟨hoff, hbehind, htail⟩ := hc
  have hbits : i32 ((off / 4096 : Nat) : Int) = ((off / 4096 : Nat) : Int) :=
    i32_eq_self (by omega) (by omega)
  rw [mapSearceValidBytes, hbits] at hlt
  dsimp only at hlt
  split at hlt
  · omega
  · rename_i hin
    have hpages {i : Nat}
        (hi : i < validPages s.cache.map s.cache.mapSize ((off / 4096 : Nat) : Int) (size / 4096)) :
        Valid s.cache (off / 4096 + i) :=
      marked_of_validPages (by omega) hi
    split at hlt
    · rename_i hall
      by_cases hpage : (x / 4096 : Int) < off / 4096 + size / 4096
      · refine h.valid _ (hpages (i := x / 4096 - off / 4096) (by omega)) x ?_
        omega
      · refine htail (by omega) (fun i hi => hpages (by omega)) x hx (by omega) (by omega) hfile
    · refine h.valid _ (hpages (i := x / 4096 - off / 4096) (by omega)) x ?_
      omega

theorem readsStored_of_sound {s : State} {off : Nat} {size : Int} (h : Sound s)
    (hc : CarefulRead s off size) : ReadsStored s (.read off size) := by
  intro i b hb
  rw [cachefileRead] at hb
  dsimp only at hb
  split at hb
  · rename_i hpos
    have hi : i < (min (mapSearceValidBytes s.cache.map s.cache.mapSize off size) size).toNat := by
      have := (List.getElem?_eq_some_iff.1 hb).1
      rw [List.length_take] at this
      omega
    rw [List.getElem?_take_of_lt hi, List.getElem?_drop] at hb
    have hfile := (List.getElem?_eq_some_iff.1 hb).1
    have hsome := isSome_of_search h hc (Nat.le_add_right off i) hfile (by omega)
    obtain ⟨b', hb'⟩ := Option.isSome_iff_exists.1 hsome
    rw [hb', ← h.file _ _ hb', hb]
  · simp at hb

theorem sound_start {c : Cache} (h : Opened c) : Sound (start c) := by
  refine ⟨?_, fun x b hb => by simp [start] at hb⟩
  rintro page ⟨hpage, hm⟩
  simp only [start] at hpage hm
  rw [marked, h.map_zero _ (by omega)] at hm
  simp at hm

/-- In a careful run from an empty map every read returns the bytes stored last. -/
theorem readsStored_of_careful {c : Cache} (h : Opened c) {ops : List Op}
    (hc : Each Careful step (start c) ops) : Each ReadsStored step (start c) ops := by
  have hstep : ∀ s op, Sound s → Careful s op → Sound (step s op).1 ∧ ReadsStored s op := by
    intro s op hs hok
    cases op with
    | write off buf wrote => exact ⟨sound_write hs hok, trivial⟩
    | read off size => exact ⟨hs, readsStored_of_sound hs hok⟩
  exact each_inv hstep (sound_start h) hc

/-- A new cache file whose map has nine bytes. -/
def fresh : Cache := ⟨9, fun _ => 0, [], 0⟩

/-- A page and a piece, the rest of the second page, and a read over both. -/
def twoPages : List Op :=
  [.write 0 (List.replicate 4196 7) (some 4196), .write 4196 (List.replicate 3996 8) (some 3996),
    .read 100 8092]

theorem readsStored_twoPages :
    Each Careful step (start fresh) twoPages ∧ Each ReadsStored step (start fresh) twoPages := by
  have hc : Each Careful step (start fresh) twoPages := by
    have hlen1 : (written (List.replicate 4196 (7 : Byte)) (some 4196)).length = 4196 := by
      rw [written, List.length_take, List.length_replicate]
      rfl
    have hlen2 : (written (List.replicate 3996 (8 : Byte)) (some 3996)).length = 3996 := by
      rw [written, List.length_take, List.length_replicate]
      rfl
    have hstored1 {x : Nat} (hx : x < 4196) :
        (store (start fresh).stored 0 (written (List.replicate 4196 7) (some 4196)) x).isSome :=
      isSome_store (by omega)
    refine ⟨Or.inr ?_, Or.inr ?_, ?_, trivial⟩
    · rw [hlen1]
      refine ⟨by omega, by decide, ?_⟩
      intro x hx hout
      have hrange : 0 * 4096 ≤ x ∧ x < (0 + 1) * 4096 := hx
      omega
    · rw [hlen2, step, cachefileWrite]
      dsimp only
      rw [List.length_replicate]
      refine ⟨by omega, by decide, ?_⟩
      intro x hx hout
      have hrange : 1 * 4096 ≤ x ∧ x < (1 + 1) * 4096 := hx
      exact hstored1 (by omega)
    · rw [step, step]
      refine ⟨by omega, by omega, ?_⟩
      intro _ _ x _ hx hlt _
      dsimp only at *
      exact isSome_store fun hout => hstored1 (by omega)
  exact ⟨hc, readsStored_of_careful ⟨fun _ _ => rfl, rfl⟩ hc⟩

/-- One byte behind a hole, and a read of the hole. -/
def hole : List Op := [.write 1 [5] (some 1), .read 0 1]

theorem not_readsStored_hole :
    ¬ ∀ (c : Cache) (ops : List Op), Opened c → Each ReadsStored step (start c) ops := by
  intro h
  have hread := (h fresh hole ⟨fun _ _ => rfl, rfl⟩).2.1 0 0 (by decide)
  revert hread
  decide

end VendorAmlogic.CacheFile
