import VendorAmlogic.Amsub.VobSafety

/-!
# Reconstruction of a DVD subtitle picture

From the fragments of a packet to the colours in `amsub_data`. Only whole pairs of
rows are decoded, so the last row of an odd height is background; and where the cut
takes columns away, a row goes on with the start of the next one.
-/

namespace VendorAmlogic.Amsub.Vob

open VendorAmlogic.Lib

/-! ## Packets with a picture -/

/-- `cmd_offset`, from the string. -/
def Spu.addressed (s : Spu) (buf : List Byte) : Spu := { s with cmdOffset := half (buf.drop 2) }

/-- A row of the picture. -/
def pictureRow (pic : Nat → Nat → Fin 4) (w y : Nat) : List (Fin 4) := (List.range w).map (pic y)

/-- The field that starts with row `first` has the codes of its rows at `addr`. -/
def Encodes (data : Mem) (addr : Half) (pic : Nat → Nat → Fin 4) (w first n : Nat) : Prop :=
  ∃ codes : List (List Code), Lines data w (2 * addr) 0 codes ∧
    codes.map (linePixels w 0) = (List.range n).map fun r => pictureRow pic w (2 * r + first)

/-- The last command of this kind has these bytes. -/
def Sets (cs : List (Command spuLayout)) (id : CommandID) (a : List Byte) : Prop :=
  ∃ before c after, cs = before ++ c :: after ∧ c.id = id ∧ c.args = a ∧ ∀ c' ∈ after, c'.id ≠ id

/-- The two bytes of an address or a contrast, the high one first. -/
def twoBytes (v : Half) : List Byte := [BitVec.ofNat 8 (v / 256), BitVec.ofNat 8 (v % 256)]

/-- The start and the end of `n` columns or rows: two reserved bits, ten bits and twelve bits. -/
def extent (reserved : Fin 4) (start : Fin 1024) (n : Nat) : List Byte :=
  [BitVec.ofNat 8 (64 * reserved + start / 16),
    BitVec.ofNat 8 (start % 16 * 16 + (start + n - 1) / 256), BitVec.ofNat 8 ((start + n - 1) % 256)]

/-- The area is `w` columns wide and `h` rows high. -/
def Area (cs : List (Command spuLayout)) (w h : Nat) : Prop :=
  ∃ (r r' : Fin 4) (x y : Fin 1024), x + w ≤ 4096 ∧ y + h ≤ 4096 ∧
    Sets cs .setDarea (extent r x w ++ extent r' y h)

/-- The fragments of a packet. -/
structure Delivered (buf : List Byte) (length : Nat) (s : Spu) (pkt : List Byte) : Prop where
  cut : ∃ first frs rest, Cut buf length first frs rest ∧ first ++ payloads frs = pkt
  whole : pkt.length = spuLength buf
  inside : (s.addressed buf).cmdOffset + 4 ≤ pkt.length

/-- The packet has this picture of `w` columns and `h` rows: commands, and behind them `tail`, which
does not begin with another one; among the commands the area, the two addresses with the codes of the
even and the odd rows, and a contrast of zero for the background. -/
structure Carries (buf : List Byte) (length : Nat) (s : Spu) (pic : Nat → Nat → Fin 4) (w h : Nat)
    (pkt : List Byte) (cs : List (Command spuLayout)) (tail : List Byte) : Prop
    extends Delivered buf length s pkt where
  control : pkt.drop ((s.addressed buf).cmdOffset + 4) = cs.flatMap Command.bytes ++ tail
  noMore : ∀ c : Command spuLayout, ¬ c.bytes <+: tail
  area : Area cs w h
  fields : ∃ top bottom : Half, Sets cs .setDspxa (twoBytes top ++ twoBytes bottom) ∧
    Encodes (packetMem pkt) top pic w 0 ((h + 1) / 2) ∧ Encodes (packetMem pkt) bottom pic w 1 (h / 2)
  contrast : ∃ v : Half, Sets cs .setContr (twoBytes v) ∧ (v : Nat) % 16 = 0

/-- The palette of a packet. -/
def framePal (palette : Option (Nat → Rgba)) (t : Spu) (c : Colors) : List Rgba :=
  rgbaPal (setColors palette t c) t.alpha

/-- `get_vob_spu` and `amsub_vob_reset_data` make the picture, in these colours. -/
def Reconstructs (palette : Option (Nat → Rgba)) (buf : List Byte) (length : Nat) (s : Spu) (c : Colors)
    (heap : Words) (pic : Nat → Nat → Fin 4) (w h : Nat) (pal : List Rgba) : Prop :=
  ∃ n data rd p, getVobSpu buf length n = some (.ready data rd) ∧
    decodeAndReset palette data (spuLength buf) (s.addressed buf) c heap = some (some p) ∧
    p.height = h ∧ ∀ y x, y < h → x < w → p.words (y * p.width + x) = palAt pal (pic y x)

/-- The last row of an odd height looks like background, and the columns behind the cut like
the start of the next row. -/
structure Shows (pal : List Rgba) (w h : Nat) (pic : Nat → Nat → Fin 4) : Prop where
  last : h % 2 = 1 → ∀ x, x < w → x < cutWidth w → palAt pal (pic (h - 1) x) = palAt pal 0
  wrapped : ∀ y x, y < h → cutWidth w ≤ x → x < w → palAt pal (pic y x) =
    if y + 1 < h then palAt pal (pic (y + 1) (x - cutWidth w)) else 0

/-! ## Fields -/

section
variable {data : Mem} {w q d n r x : Nat} {codes : List (List Code)} {rows : List (List (Fin 4))}
  {pixel : Nat → Nat}

theorem Lines.take (h : Lines data w q d codes) (n : Nat) : Lines data w q d (codes.take n) := by
  induction codes generalizing q d n with
  | nil => rwa [List.take_nil]
  | cons cs codes ih =>
    cases n with
    | zero => trivial
    | succ n => exact ⟨h.1, ih h.2 n⟩

/-- The words of rows that are full. -/
theorem lineWords_full (hrows : ∀ cs ∈ codes, (linePixels w 0 cs).length = w) :
    lineWords w 0 codes = codes.length * ((w + 7) / 8) := by
  induction codes with
  | nil => rw [lineWords, List.length_nil, Nat.zero_mul]
  | cons cs codes ih =>
    rw [lineWords, hrows cs List.mem_cons_self, Nat.zero_add, Nat.sub_self,
      ih fun cs' h => hrows cs' (List.mem_cons_of_mem cs h), List.length_cons, Nat.succ_mul,
      Nat.add_comm]

/-- Pixel `x` of row `r`. -/
theorem packed_getD (hrows : ∀ cs ∈ codes, (linePixels w 0 cs).length = w) (hx : x < w) (r : Nat) :
    (packed w (fun v => v) 0 codes).getD (r * (8 * ((w + 7) / 8)) + x) 0 =
      (((codes.map (linePixels w 0)).getD r []).map fun c : Fin 4 => (c : Nat)).getD x 0 := by
  induction codes generalizing r with
  | nil => simp [packed]
  | cons cs codes ih =>
    have hlen := hrows cs List.mem_cons_self
    have hblock : (padded ((linePixels w 0 cs).map fun c : Fin 4 => (c : Nat))).length =
        8 * ((w + 7) / 8) := by rw [length_padded, List.length_map, hlen]
    rw [packed, hlen, Nat.zero_add, Nat.sub_self]
    cases r with
    | zero =>
      rw [Nat.zero_mul, Nat.zero_add, List.getD_append _ _ _ _ (by omega)]
      exact getD_padded [] _ x
    | succ r =>
      rw [Nat.succ_mul, List.getD_append_right _ _ _ _ (by omega), hblock,
        show r * (8 * ((w + 7) / 8)) + 8 * ((w + 7) / 8) + x - 8 * ((w + 7) / 8) =
          r * (8 * ((w + 7) / 8)) + x by omega]
      exact ih (fun cs' h => hrows cs' (List.mem_cons_of_mem cs h)) r

theorem length_pictureRow (pic : Nat → Nat → Fin 4) (w y : Nat) :
    (pictureRow pic w y).length = w := by
  rw [pictureRow, List.length_map, List.length_range]

/-- The rows of a field, and pixel `x` of row `r`: behind the last row there is background. -/
theorem encodes_field {addr : Half} {s : Spu} {pic : Nat → Nat → Fin 4} {first : Nat}
    (hdata : ∀ i, 2 ^ 16 ≤ i → data i = 0) (hcontrast : (s.alpha : Nat) % 16 = 0)
    (henc : Encodes data addr pic s.width first n) (hn : s.height / 2 ≤ n)
    (hroom : s.height / 2 * ((s.width + 7) / 8) ≤ fieldWords) :
    ∃ out, spuFillPixel data addr s = some out ∧ ∀ r x, x < s.width →
      pairAt out (r * (8 * ((s.width + 7) / 8)) + x) =
        if r < s.height / 2 then (pic (2 * r + first) x : Nat) else 0 := by
  obtain ⟨codes, hlines, hrows⟩ := henc
  have hchange : changeData s.alpha = 0 := by
    rw [changeData, dif_pos hcontrast]
  have hlength : codes.length = n := by
    have h := congrArg List.length hrows
    rwa [List.length_map, List.length_map, List.length_range] at h
  have htake : (codes.take (s.height / 2)).length = s.height / 2 := by
    rw [List.length_take]
    omega
  have hfull : ∀ cs ∈ codes.take (s.height / 2), (linePixels s.width 0 cs).length = s.width := by
    intro cs hcs
    have hmem := List.mem_map_of_mem (f := linePixels s.width 0) (List.mem_of_mem_take hcs)
    rw [hrows] at hmem
    obtain ⟨r, -, hr⟩ := List.mem_map.mp hmem
    rw [← hr, length_pictureRow]
  have hspec := spuFillPixel_spec hdata (by rw [hchange]; decide) (hlines.take _) htake
  rw [lineWords_full hfull, htake, if_pos hroom, hchange] at hspec
  obtain ⟨out, hout, hpixels⟩ := hspec
  refine ⟨out, hout, fun r x hx => ?_⟩
  rw [hpixels]
  refine (packed_getD hfull hx r).trans ?_
  rw [List.map_take, hrows, ← List.map_take, List.take_range, min_eq_left hn]
  split
  · rename_i hr
    rw [List.getD_eq_getElem?_getD, List.getD_eq_getElem?_getD]
    simp [pictureRow, hr, hx]
  · rename_i hr
    have hnil : ((List.range (s.height / 2)).map fun r =>
        pictureRow pic s.width (2 * r + first)).getD r [] = [] :=
      List.getD_eq_default _ _ (by rw [List.length_map, List.length_range]; omega)
    rw [hnil]
    rfl

end

/-! ## The parsed picture -/

theorem dataByte_eq (w : Nat) : 4 * Scan.dataByte w = 8 * ((w + 7) / 8) := by
  unfold Scan.dataByte
  omega

theorem align64_bound {w h : Nat} (hfits : align64 w * h * 4 ≤ vobSubSize) :
    h * (8 * ((w + 7) / 8)) ≤ 153600 := by
  have hle : 8 * ((w + 7) / 8) ≤ align64 w := by
    unfold align64
    omega
  have hmul := Nat.mul_le_mul_left h hle
  rw [Nat.mul_comm h (align64 w)] at hmul
  have hsize : vobSubSize = 614400 := rfl
  omega

/-- A byte of row `y` is one of its field. -/
theorem rowData_field {odd even : Nat → Nat} {w h y b : Nat}
    (hfits : align64 w * h * 4 ≤ vobSubSize) (hy : y < h) (hb : b < Scan.dataByte w) :
    Scan.rowData (fieldBytes odd even) w y b =
      wordByte (if y % 2 = 1 then even else odd) (y / 2 * Scan.dataByte w + b) := by
  have hsize : vobSubSize / 2 = 307200 := rfl
  have hbound := align64_bound hfits
  have hdata := dataByte_eq w
  have hmul := Nat.mul_le_mul_right (Scan.dataByte w) (show y / 2 + 1 ≤ h by omega)
  rw [Nat.succ_mul] at hmul
  rw [← hdata, ← Nat.mul_assoc, Nat.mul_comm h 4, Nat.mul_assoc] at hbound
  unfold Scan.rowData fieldBytes
  rw [hsize]
  by_cases hodd : y % 2 = 1
  · rw [if_pos hodd, if_pos hodd, if_neg (by omega),
      show y / 2 * Scan.dataByte w + 307200 + b - 307200 = y / 2 * Scan.dataByte w + b by omega]
  · rw [if_neg hodd, if_neg hodd, if_pos (by omega), Nat.add_zero]

/-- **A pixel** of row `y` is one of its field. -/
theorem parsedColor_field {pal : List Rgba} {odd even : Nat → Nat} {w h y x : Nat}
    (hfits : align64 w * h * 4 ≤ vobSubSize) (hy : y < h) (hx : x < w) :
    parsedColor pal (fieldBytes odd even) w y x =
      palAt pal (pairAt (if y % 2 = 1 then even else odd)
        (y / 2 * (8 * ((w + 7) / 8)) + x)) := by
  have hdata := dataByte_eq w
  have hother : otherByte (x / 4) < Scan.dataByte w := by
    unfold otherByte Scan.dataByte
    split <;> omega
  have hword : y / 2 * Scan.dataByte w + otherByte (x / 4) =
      otherByte (y / 2 * Scan.dataByte w + x / 4) := by
    have heven : y / 2 * Scan.dataByte w % 2 = 0 := by
      unfold Scan.dataByte
      rw [← Nat.mul_assoc]
      omega
    unfold otherByte
    split <;> split <;> omega
  unfold parsedColor rowColor
  rw [rowData_field hfits hy hother, hword, wordByte_other _ _ (by omega)]
  rw [← hdata, Nat.mul_left_comm,
    show 4 * (y / 2 * Scan.dataByte w + x / 4) + x % 4 = 4 * (y / 2 * Scan.dataByte w) + x by omega]

/-- Pixel `x` of row `y` as it is decoded: a last row alone is background. -/
def shown (pal : List Rgba) (pic : Nat → Nat → Fin 4) (h y x : Nat) : Rgba :=
  palAt pal (if y / 2 < h / 2 then (pic y x : Nat) else 0)

/-! ## The packet -/

theorem copy_packetMem (bytes : List Byte) : Mem.copy (fun _ => 0) 0 bytes = packetMem bytes := by
  funext i
  unfold Mem.copy packetMem
  split
  · rfl
  · exact (List.getD_eq_default _ _ (by omega)).symm

theorem reassemble_unique {buf : List Byte} {length n m : Nat} {st : Frame} {r r' : Ending}
    (h : reassemble buf length n st = some r) (h' : reassemble buf length m st = some r') :
    r = r' := by
  induction n generalizing m st with
  | zero => cases h
  | succ n ih =>
    cases m with
    | zero => cases h'
    | succ m =>
      rw [reassemble] at h h'
      cases hstep : around buf length st with
      | inl st' =>
        rw [hstep] at h h'
        exact ih h h'
      | inr r'' =>
        rw [hstep] at h h'
        exact (Option.some.inj h).symm.trans (Option.some.inj h')

/-! ## What the commands leave -/

section
variable {cs : List (Command spuLayout)} {id : CommandID} {a tail : List Byte} {w h : Nat}

/-- What no later command touches is as the last command of its kind leaves it. -/
theorem Sets.after {α : Type} {g : Spu → α} {v : α} (hset : Sets cs id a)
    (hframe : ∀ s id' a', id' ≠ id → g (Spu.command s id' a') = g s)
    (hv : ∀ s, g (Spu.command s id a) = v) (s : Spu) : g (s.after cs) = v := by
  obtain ⟨before, c, after, rfl, rfl, rfl, hlater⟩ := hset
  have hrest : ∀ s : Spu, g (s.after after) = g s := by
    induction after with
    | nil => exact fun _ => rfl
    | cons c' after ih =>
      intro s
      rw [Spu.after, List.foldl_cons]
      refine (ih (fun x hx => hlater x (List.mem_cons_of_mem c' hx)) _).trans ?_
      exact hframe s _ _ (hlater c' List.mem_cons_self)
  rw [Spu.after, List.foldl_append, List.foldl_cons]
  exact (hrest _).trans (hv _)

theorem half_twoBytes (v : Half) (l : List Byte) : half (twoBytes v ++ l) = v := by
  have hv := v.isLt
  apply Fin.ext
  simp only [half, spuLength, twoBytes, be, List.cons_append, List.take_succ_cons, List.take_zero,
    List.foldl_cons, List.foldl_nil, BitVec.toNat_ofNat, Nat.mul_zero, Nat.zero_add]
  omega

/-- The start and the end are read back from their bytes. -/
theorem extent_eq (reserved : Fin 4) (start : Fin 1024) {n : Nat} (h : start + n ≤ 4096) :
    byteAt (extent reserved start n) 0 % 64 * 16 + byteAt (extent reserved start n) 1 / 16 = start ∧
      byteAt (extent reserved start n) 1 % 16 * 256 + byteAt (extent reserved start n) 2 =
        start + n - 1 := by
  have hbyte (v : Nat) (hv : v < 256) : (BitVec.ofNat 8 v).toNat = v := by
    rw [BitVec.toNat_ofNat]
    exact Nat.mod_eq_of_lt hv
  have hr := reserved.isLt
  have hs := start.isLt
  simp only [extent, byteAt, List.getD_cons_zero, List.getD_cons_succ]
  rw [hbyte _ (by omega), hbyte _ (by omega), hbyte _ (by omega)]
  have hhigh : (64 * (reserved : Nat) + start / 16) % 64 = start / 16 := by omega
  have hlow : ((start : Nat) % 16 * 16 + (start + n - 1) / 256) / 16 = start % 16 := by omega
  have hend : ((start : Nat) % 16 * 16 + (start + n - 1) / 256) % 16 = (start + n - 1) / 256 := by omega
  rw [hhigh, hlow, hend]
  omega

/-- The area is set as it is told. -/
theorem setArea_extent (s : Spu) (r r' : Fin 4) (x y : Fin 1024) (hw : 0 < w) (hh : 0 < h)
    (hx : x + w ≤ 4096) (hy : y + h ≤ 4096) :
    (s.setArea (extent r x w ++ extent r' y h)).width = min w vobSubWidth ∧
      (s.setArea (extent r x w ++ extent r' y h)).height = min h vobSubHeight := by
  have hsize (start n : Nat) (hn : 0 < n) (h : start + n ≤ 4096) :
      (start + n - 1 + 2 ^ 16 - start + 1) % 2 ^ 16 = n := by omega
  obtain ⟨hx0, hx1⟩ := extent_eq r x hx
  obtain ⟨hy0, hy1⟩ := extent_eq r' y hy
  have hfirst (i : Nat) (hi : i < 3) :
      byteAt (extent r x w ++ extent r' y h) i = byteAt (extent r x w) i := by
    rw [byteAt, List.getD_append _ _ _ _ (show i < (extent r x w).length from hi), byteAt]
  have hsecond (i : Nat) : byteAt (extent r x w ++ extent r' y h) (i + 3) = byteAt (extent r' y h) i := rfl
  simp only [Spu.setArea, hfirst 0 (by omega), hfirst 1 (by omega), hfirst 2 (by omega)]
  rw [hsecond 0, hsecond 1, hsecond 2, hx0, hx1, hy0, hy1, hsize _ _ hw hx, hsize _ _ hh hy]
  exact ⟨rfl, rfl⟩

/-- What the last `SET_DAREA` leaves. -/
theorem Area.size (harea : Area cs w h) (hw : 0 < w) (hh : 0 < h) (s : Spu) :
    (s.after cs).width = min w vobSubWidth ∧ (s.after cs).height = min h vobSubHeight := by
  obtain ⟨r, r', x, y, hx, hy, hset⟩ := harea
  have hsize : ((s.after cs).width, (s.after cs).height) = (min w vobSubWidth, min h vobSubHeight) := by
    apply hset.after (g := fun s => (s.width, s.height))
    · intro s id a hid
      cases id <;> first | rfl | exact absurd rfl hid
    · intro s
      obtain ⟨hwidth, hheight⟩ := setArea_extent s r r' x y hw hh hx hy
      exact Prod.ext hwidth hheight
  exact Prod.mk.inj hsize

/-- What the last `SET_DSPXA` leaves. -/
theorem Sets.addresses {top bottom : Half}
    (hset : Sets cs .setDspxa (twoBytes top ++ twoBytes bottom)) (s : Spu) :
    (s.after cs).top = top ∧ (s.after cs).bottom = bottom := by
  have haddrs : ((s.after cs).top, (s.after cs).bottom) = (top, bottom) := by
    apply hset.after (g := fun s => (s.top, s.bottom))
    · intro s id a hid
      cases id <;> first | rfl | exact absurd rfl hid
    · intro s
      refine Prod.ext (half_twoBytes top _) ?_
      exact (congrArg half (List.append_nil _).symm).trans (half_twoBytes bottom [])
  exact Prod.mk.inj haddrs

/-- What the last `SET_CONTR` leaves. -/
theorem Sets.alpha {v : Half} (hset : Sets cs .setContr (twoBytes v)) (s : Spu) :
    (s.after cs).alpha = v := by
  apply hset.after (g := Spu.alpha)
  · intro s id a hid
    cases id <;> first | rfl | exact absurd rfl hid
  · intro s
    exact (congrArg half (List.append_nil _).symm).trans (half_twoBytes v [])

end

section
variable {buf pkt tail : List Byte} {cs : List (Command spuLayout)} {length w h : Nat} {s t : Spu}
  {pic : Nat → Nat → Fin 4}

theorem length_payloads_le (frs : List Fragment) :
    (payloads frs).length ≤ (joined frs).length := by
  induction frs with
  | nil => exact Nat.le_refl _
  | cons f frs ih =>
    rw [payloads_cons, joined_cons, List.length_append, List.length_append, List.length_append]
    omega

/-- The string of a packet with commands is no EXTRA data, nor too short. -/
theorem Delivered.string (h : Delivered buf length s pkt) :
    ¬ extraMark <+: buf ∧ ¬ buf <+: extraMark ∧ 4 ≤ buf.length := by
  obtain ⟨first, frs, rest, hcut, hpkt⟩ := h.cut
  have hjoined := length_payloads_le frs
  have hlen : pkt.length ≤ buf.length := by
    rw [hcut.buf, ← hpkt, List.length_append, List.length_append, List.length_append]
    omega
  have hinside := h.inside
  have hwhole := h.whole
  refine ⟨?_, fun hprefix => ?_, by omega⟩
  · rintro ⟨tail, rfl⟩
    have hlength : spuLength (extraMark ++ tail) = 17752 := rfl
    have hoffset : ((s.addressed (extraMark ++ tail)).cmdOffset : Nat) = 21586 := rfl
    omega
  · have hle := hprefix.length_le
    have htwo : buf.take 2 = extraMark.take 2 := by
      rw [List.prefix_iff_eq_take.mp hprefix, List.take_take, min_eq_left (by omega)]
    have hlength : spuLength buf = 17752 := by
      rw [spuLength, htwo]
      rfl
    have hfive : extraMark.length = 5 := rfl
    omega

theorem Delivered.ready (h : Delivered buf length s pkt) :
    ∃ n k, getVobSpu buf length n = some (.ready (packetMem pkt) k) ∧
      ∀ m r, getVobSpu buf length m = some r → r = .ready (packetMem pkt) k := by
  obtain ⟨hextra, hlong, h4⟩ := h.string
  obtain ⟨first, frs, rest, hcut, hpkt⟩ := h.cut
  have hwhole := h.whole
  have hinside := h.inside
  obtain ⟨n, k, hrun⟩ := ready_of_cut hcut (by rw [hpkt, hwhole]) (by omega)
  rw [hpkt, copy_packetMem] at hrun
  have heq : ∀ m, getVobSpu buf length m = reassemble buf (spuLength buf) m (start length) :=
    fun m => (getVobSpu_eq hextra hlong length m).trans (if_neg (not_lt.mpr h4))
  refine ⟨n, k, (heq n).trans hrun, fun m r hr => ?_⟩
  rw [heq] at hr
  exact reassemble_unique hr hrun

theorem background_of_zero (hcontrast : (t.alpha : Nat) % 16 = 0) : t.background = t := by
  unfold Spu.background
  rw [changeData, dif_pos hcontrast]
  rfl

/-- The commands leave the frame of the picture. -/
theorem Carries.told (hcar : Carries buf length s pic w h pkt cs tail) (hw : 0 < w)
    (hW : w ≤ vobSubWidth) (hh : 0 < h) (hH : h ≤ vobSubHeight)
    (ht : (s.addressed buf).after cs = t) : t.width = w ∧ t.height = h ∧ (t.alpha : Nat) % 16 = 0 ∧
      Encodes (packetMem pkt) t.top pic w 0 ((h + 1) / 2) ∧
      Encodes (packetMem pkt) t.bottom pic w 1 (h / 2) := by
  subst ht
  obtain ⟨top, bottom, haddrs, heven, hodd⟩ := hcar.fields
  obtain ⟨v, hcontr, hzero⟩ := hcar.contrast
  obtain ⟨hwidth, hheight⟩ := hcar.area.size hw hh (s.addressed buf)
  obtain ⟨htop, hbottom⟩ := haddrs.addresses (s.addressed buf)
  rw [hwidth, hheight, min_eq_left hW, min_eq_left hH, hcontr.alpha, htop, hbottom]
  exact ⟨rfl, rfl, hzero, heven, hodd⟩

/-- **The picture** behind `amsub_vob_reset_data`. -/
theorem Carries.picture (hcar : Carries buf length s pic w h pkt cs tail) (hclosing : Closing tail)
    (palette : Option (Nat → Rgba)) (c : Colors) (heap : Words) (hw : 0 < w) (hW : w ≤ vobSubWidth)
    (hh : 0 < h) (hH : h ≤ vobSubHeight) (hfits : align64 w * h * 4 ≤ vobSubSize)
    (ht : (s.addressed buf).after cs = t) :
    ∃ p, decodeAndReset palette (packetMem pkt) (spuLength buf) (s.addressed buf) c heap =
        some (some p) ∧ p.height = h ∧ ∀ y x, y < h → x < w →
      p.words (y * p.width + x) =
        if x < cutWidth w then shown (framePal palette t c) pic h y x
        else if y + 1 < h then shown (framePal palette t c) pic h (y + 1) (x - cutWidth w)
        else 0 := by
  obtain ⟨htw, hth, hcontrast, hevenRows, hoddRows⟩ := hcar.told hw hW hh hH ht
  obtain ⟨d, r, hrun⟩ := getSpuCmd_of_control ⟨tail, hcar.control, hclosing⟩
  rw [ht] at hrun
  subst htw hth
  have hlt : pkt.length < 2 ^ 16 := hcar.whole ▸ length_lt buf
  have hdata : ∀ i, 2 ^ 16 ≤ i → packetMem pkt i = 0 := fun i hi => packetMem_behind hlt hi
  have hbound := align64_bound hfits
  have hroom : t.height / 2 * ((t.width + 7) / 8) ≤ fieldWords := by
    have hmul := Nat.mul_le_mul_right ((t.width + 7) / 8) (Nat.div_le_self t.height 2)
    rw [Nat.mul_left_comm] at hbound
    have hwords : fieldWords = 153600 := rfl
    omega
  obtain ⟨odd, hodd, hoddPixels⟩ := encodes_field (s := { t with mDelay := d }) hdata hcontrast
    hevenRows (by dsimp only; omega) hroom
  obtain ⟨even, heven, hevenPixels⟩ := encodes_field (s := { t with mDelay := d }) hdata hcontrast
    hoddRows (Nat.le_refl _) hroom
  have hcut := cutWidth_cases hw
  have hal := le_align64 t.width
  have hsmall := Nat.mul_le_mul_left t.height (show cutWidth t.width ≤ align64 t.width by omega)
  rw [Nat.mul_comm t.height (align64 _)] at hsmall
  obtain ⟨p, hp, hwidth, hheight, hwords⟩ := reset_picture (fieldBytes odd even)
    (framePal palette t c) heap (show 0 < ({ t with mDelay := d } : Spu).width from hw) hh
    (by dsimp only; omega)
  have hparsed : ∀ y x, y < t.height → x < t.width →
      parsedColor (framePal palette t c) (fieldBytes odd even) t.width y x =
        shown (framePal palette t c) pic t.height y x := by
    intro y x hy hx
    rw [parsedColor_field hfits hy hx, shown]
    congr 1
    by_cases hparity : y % 2 = 1
    · rw [if_pos hparity]
      refine (hevenPixels (y / 2) x hx).trans ?_
      rw [show 2 * (y / 2) + 1 = y by omega]
    · rw [if_neg hparity]
      refine (hoddPixels (y / 2) x hx).trans ?_
      rw [show 2 * (y / 2) + 0 = y by omega]
  refine ⟨p, ?_, hheight, fun y x hy hx => ?_⟩
  · unfold decodeAndReset decodeFrame
    rw [← hcar.whole, read_packetMem, hrun, Option.bind_some]
    dsimp only
    rw [hodd, Option.bind_some, heven, Option.map_some, Option.bind_some]
    have hback : ({ t with mDelay := d } : Spu).background = { t with mDelay := d } :=
      background_of_zero hcontrast
    dsimp only
    rw [hback]
    exact hp
  · rw [hwords y x hy hx]
    split
    · exact hparsed y x hy hx
    · split
      · exact hparsed (y + 1) _ ‹_› (Nat.lt_of_le_of_lt (Nat.sub_le ..) hx)
      · rfl

/-! ## Pictures that come out -/

variable {palette : Option (Nat → Rgba)} {c : Colors} {heap : Words}

theorem shown_of_last {pal : List Rgba} {w y x : Nat} {h : Nat} (hlast : h % 2 = 1 → ∀ x, x < w →
    x < cutWidth w → palAt pal (pic (h - 1) x) = palAt pal 0) (hy : y < h) (hx : x < w)
    (hcut : x < cutWidth w) : shown pal pic h y x = palAt pal (pic y x) := by
  unfold shown
  split
  · rfl
  · have hodd : h % 2 = 1 := by omega
    rw [← hlast hodd x hx hcut, show h - 1 = y by omega]

/-- Where a picture comes out, nothing behind the packet was read. -/
theorem Carries.closing (hcar : Carries buf length s pic w h pkt cs tail) {pal : List Rgba}
    (hrec : Reconstructs palette buf length s c heap pic w h pal) : Closing tail := by
  obtain ⟨n, data, rd, p, hget, hp, -⟩ := hrec
  obtain ⟨m, k, -, hready⟩ := hcar.ready
  obtain ⟨rfl, -⟩ := Ending.ready.inj (hready n _ hget)
  unfold decodeAndReset decodeFrame at hp
  rw [← hcar.whole, read_packetMem] at hp
  cases hrun : getSpuCmd pkt (s.addressed buf) with
  | none =>
    rw [hrun] at hp
    cases hp
  | some r =>
    rw [getSpuCmd_eq, hcar.control, commands_append] at hrun
    obtain ⟨cs', tail', htail, hclosing⟩ := control_of_commands hrun
    -- the commands of the packet are all that there are
    cases cs' with
    | nil => exact htail ▸ hclosing
    | cons c' cs' =>
      refine absurd ⟨cs'.flatMap Command.bytes ++ tail', ?_⟩ (hcar.noMore c')
      rw [htail, List.flatMap_cons, List.append_assoc]

/-- What is right in every pixel shows the picture. -/
theorem Carries.shows (hcar : Carries buf length s pic w h pkt cs tail) (hw : 0 < w)
    (hW : w ≤ vobSubWidth) (hh : 0 < h) (hH : h ≤ vobSubHeight)
    (hfits : align64 w * h * 4 ≤ vobSubSize) (ht : (s.addressed buf).after cs = t)
    (hrec : Reconstructs palette buf length s c heap pic w h (framePal palette t c)) :
    Shows (framePal palette t c) w h pic := by
  have hclosing := hcar.closing hrec
  obtain ⟨n, data, rd, p, hget, hp, -, hpixels⟩ := hrec
  obtain ⟨m, k, -, hready⟩ := hcar.ready
  obtain ⟨rfl, -⟩ := Ending.ready.inj (hready n _ hget)
  obtain ⟨p', hp', -, hpicture⟩ := hcar.picture hclosing palette c heap hw hW hh hH hfits ht
  obtain rfl := Option.some.inj (Option.some.inj (hp.symm.trans hp'))
  have hcut := cutWidth_cases hw
  have hal := le_align64 w
  have hlast : h % 2 = 1 → ∀ x, x < w → x < cutWidth w →
      palAt (framePal palette t c) (pic (h - 1) x) = palAt (framePal palette t c) 0 := by
    intro hodd x hx hx'
    rw [← hpixels (h - 1) x (by omega) hx, hpicture (h - 1) x (by omega) hx, if_pos hx', shown,
      if_neg (by omega)]
  refine ⟨hlast, fun y x hy hx' hx => ?_⟩
  rw [← hpixels y x hy hx, hpicture y x hy hx, if_neg (not_lt.mpr hx')]
  split
  · exact shown_of_last hlast ‹_› (by omega) (by omega)
  · rfl

/-- A picture that shows comes out. -/
theorem Carries.reconstructs (hcar : Carries buf length s pic w h pkt cs tail)
    (hclosing : Closing tail) (hw : 0 < w) (hW : w ≤ vobSubWidth) (hh : 0 < h) (hH : h ≤ vobSubHeight)
    (hfits : align64 w * h * 4 ≤ vobSubSize) (ht : (s.addressed buf).after cs = t)
    (hshows : Shows (framePal palette t c) w h pic) :
    Reconstructs palette buf length s c heap pic w h (framePal palette t c) := by
  obtain ⟨m, k, hget, -⟩ := hcar.ready
  obtain ⟨p, hp, hheight, hpicture⟩ := hcar.picture hclosing palette c heap hw hW hh hH hfits ht
  have hcut := cutWidth_cases hw
  have hal := le_align64 w
  refine ⟨m, _, k, p, hget, hp, hheight, fun y x hy hx => ?_⟩
  rw [hpicture y x hy hx]
  split
  · exact shown_of_last hshows.last hy hx ‹_›
  · rw [hshows.wrapped y x hy (not_lt.mp ‹_›) hx]
    split
    · exact shown_of_last hshows.last ‹_› (by omega) (by omega)
    · rfl

end

/-! ## Two packets -/

/-- A `CMD_END` is no other command. -/
theorem noMore_end (tail : List Byte) (c : Command spuLayout) :
    ¬ c.bytes <+: CommandID.cmdEnd.toByte :: tail := by
  intro hprefix
  have hbyte := (List.cons_prefix_cons.mp hprefix).1
  have hid := congrArg CommandID.ofByte hbyte
  rw [CommandID.ofByte_toByte, CommandID.ofByte_toByte] at hid
  exact c.id_ne (Option.some.inj hid)

/-- Four rows of five pixels, from column 100 and row 400 on: the codes of the even and of the odd rows,
a delay, and the commands. -/
def fourRows : List Byte :=
  [0x00, 0x22, 0x00, 0x0A, 0xDA, 0x8D, 0x00, 0x03, 0x6F, 0x60, 0x00, 0x00, 0x00, 0x0A, 0x03, 0x32, 0x10,
    0x04, 0xFF, 0xF0, 0x05, 0x06, 0x40, 0x68, 0x19, 0x01, 0x93, 0x06, 0x00, 0x04, 0x00, 0x06, 0x01, 0xFF]

def fourRowsCommands : List (Command spuLayout) :=
  [⟨.setColor, [0x32, 0x10], [], by decide, rfl, rfl⟩,
    ⟨.setContr, [0xFF, 0xF0], [], by decide, rfl, rfl⟩,
    ⟨.setDarea, [0x06, 0x40, 0x68, 0x19, 0x01, 0x93], [], by decide, rfl, rfl⟩,
    ⟨.setDspxa, [0x00, 0x04, 0x00, 0x06], [], by decide, rfl, rfl⟩,
    ⟨.staDsp, [], [], by decide, rfl, rfl⟩]

def fourRowsPicture (y x : Nat) : Fin 4 :=
  ([[1, 1, 1, 2, 2], [3, 3, 3, 3, 3], [0, 0, 1, 1, 1], [2, 3, 3, 3, 2]].getD y []).getD x 0

/-- The last fourteen bytes of the packet in a fragment of their own. -/
def secondFragment : Fragment :=
  ⟨[0x41, 0x4D, 0x4C, 0x55, 0xAA, 0x00, 0x00, 0x00, 0x00, 0x00, 0x00, 0x0E, 0x00, 0x00, 0x00, 0x00],
    fourRows.drop 20⟩

def fourRowsString : List Byte := fourRows.take 20 ++ joined [secondFragment]

theorem carries_fourRows : Carries fourRowsString 20 Spu.cleared fourRowsPicture 5 4 fourRows
    fourRowsCommands [0xFF] where
  cut := by
    refine ⟨fourRows.take 20, [secondFragment], [], ⟨?_, rfl, ?_⟩, rfl⟩
    · rw [List.append_nil]
      rfl
    · exact List.forall_mem_singleton.mpr ⟨rfl, by decide, by decide⟩
  whole := rfl
  inside := by decide
  control := by decide
  noMore := noMore_end []
  area := ⟨0, 0, 100, 400, by decide, by decide, fourRowsCommands.take 2, _, fourRowsCommands.drop 3, rfl,
    rfl, rfl, by decide⟩
  fields := by
    refine ⟨4, 6, ⟨fourRowsCommands.take 3, _, fourRowsCommands.drop 4, rfl, rfl, rfl, by decide⟩,
      ⟨[[⟨1, 3, 1, by decide⟩, ⟨1, 2, 2, by decide⟩], [⟨1, 2, 0, by decide⟩, ⟨1, 3, 1, by decide⟩]],
        by decide, by decide⟩,
      ⟨[[⟨4, 0, 3, by decide⟩], [⟨1, 1, 2, by decide⟩, ⟨1, 3, 3, by decide⟩, ⟨1, 1, 2, by decide⟩]],
        by decide, by decide⟩⟩
  contrast := ⟨0xFFF0, ⟨fourRowsCommands.take 1, _, fourRowsCommands.drop 2, rfl, rfl, rfl, by decide⟩,
    by decide⟩

/-- Some colours. -/
def grays (i : Nat) : Rgba := BitVec.ofNat 32 (0x101010 * i)

/-- A row of one pixel. -/
def loneRow : List Byte :=
  [0x00, 0x1A, 0x00, 0x06, 0x50, 0x60, 0x00, 0x00, 0x00, 0x00, 0x05, 0x00, 0x00, 0x00, 0x00, 0x00,
    0x00, 0x06, 0x00, 0x04, 0x00, 0x05, 0x04, 0xFF, 0xF0, 0xFF]

def loneCommands : List (Command spuLayout) :=
  [⟨.setDarea, [0x00, 0x00, 0x00, 0x00, 0x00, 0x00], [], by decide, rfl, rfl⟩,
    ⟨.setDspxa, [0x00, 0x04, 0x00, 0x05], [], by decide, rfl, rfl⟩,
    ⟨.setContr, [0xFF, 0xF0], [], by decide, rfl, rfl⟩]

theorem carries_loneRow : Carries loneRow 26 Spu.cleared (fun _ _ => 1) 1 1 loneRow loneCommands [0xFF] where
  cut := ⟨loneRow, [], [], ⟨(List.append_nil _).symm, rfl, fun _ h => absurd h List.not_mem_nil⟩,
    List.append_nil _⟩
  whole := rfl
  inside := by decide
  control := by decide
  noMore := noMore_end []
  area := ⟨0, 0, 0, 0, by decide, by decide, [], _, loneCommands.drop 1, rfl, rfl, rfl, by decide⟩
  fields := ⟨4, 5, ⟨loneCommands.take 1, _, loneCommands.drop 2, rfl, rfl, rfl, by decide⟩,
    ⟨[[⟨1, 1, 1, by decide⟩]], by decide, by decide⟩, ⟨[], trivial, rfl⟩⟩
  contrast := ⟨0xFFF0, ⟨loneCommands.take 2, _, [], rfl, rfl, rfl, nofun⟩, by decide⟩

end VendorAmlogic.Amsub.Vob
