import VendorAmlogic.Lib.Bytes

/-!
# Pixels in memory

A plane is memory by offset, before and behind a buffer too. A grid says where
the pixels of a picture are in it: row after row, `pitch` apart. `paint` stores
the same bytes at a list of pixels; where the pixels are of the grid, they have
these bytes then and nothing else is changed. `update` stores at each pixel what
is made of its bytes.
-/

namespace VendorAmlogic.Lib

abbrev Plane := Int → Byte

namespace Plane

def store (m : Plane) (o : Int) (d : List Byte) : Plane :=
  fun j => if o ≤ j ∧ j < o + d.length then d.getD (j - o).toNat 0 else m j

def load (m : Plane) (o : Int) (n : Nat) : List Byte := (List.range n).map fun i : Nat => m (o + i)

variable {m : Plane} {o j : Int} {d : List Byte}

@[simp] theorem length_load (m : Plane) (o : Int) (n : Nat) : (m.load o n).length = n := by
  simp [load]

theorem getD_load {n i : Nat} (h : i < n) : (m.load o n).getD i 0 = m (o + i) := by
  simp [load, h]

theorem store_in {k : Nat} (hk : k < d.length) : m.store o d (o + k) = d.getD k 0 := by
  unfold store
  rw [if_pos (by omega)]
  congr 1
  omega

theorem store_out (h : ¬ (o ≤ j ∧ j < o + d.length)) : m.store o d j = m j := if_neg h

@[simp] theorem store_nil (m : Plane) (o : Int) : m.store o [] = m := by
  funext j
  exact if_neg (by simp only [List.length_nil]; omega)

/-- A store in two parts. -/
theorem store_append (m : Plane) (o : Int) (d e : List Byte) :
    m.store o (d ++ e) = (m.store o d).store (o + d.length) e := by
  funext j
  unfold store
  simp only [List.length_append]
  by_cases h1 : o ≤ j ∧ j < o + d.length
  · rw [if_pos (by omega), if_neg (by omega), if_pos h1, List.getD_eq_getElem?_getD,
      List.getElem?_append_left (by omega), ← List.getD_eq_getElem?_getD]
  · by_cases h2 : o + d.length ≤ j ∧ j < o + d.length + e.length
    · rw [if_pos (by omega), if_pos h2, List.getD_eq_getElem?_getD,
        List.getElem?_append_right (by omega), ← List.getD_eq_getElem?_getD]
      congr 1
      omega
    · rw [if_neg (by omega), if_neg h2, if_neg h1]

theorem load_add (m : Plane) (o : Int) (n k : Nat) :
    m.load o (n + k) = m.load o n ++ m.load (o + n) k := by
  unfold load
  rw [List.range_add, List.map_append, List.map_map]
  congr 1
  refine List.map_congr_left fun i _ => ?_
  show m (o + (n + i : Nat)) = m (o + n + i)
  congr 1
  omega

theorem load_congr {m' : Plane} {n : Nat} (h : ∀ k, k < n → m (o + k) = m' (o + k)) :
    m.load o n = m'.load o n :=
  List.map_congr_left fun _ hk => h _ (List.mem_range.mp hk)

theorem load_store (m : Plane) (o : Int) (d : List Byte) : (m.store o d).load o d.length = d := by
  refine List.ext_getElem (length_load ..) fun k hk hk' => ?_
  have hbyte := getD_load (m := m.store o d) (o := o) hk'
  rw [store_in hk', List.getD_eq_getElem?_getD, List.getD_eq_getElem?_getD,
    List.getElem?_eq_getElem hk, List.getElem?_eq_getElem hk'] at hbyte
  exact hbyte

@[simp] theorem store_load (m : Plane) (o : Int) (n : Nat) : m.store o (m.load o n) = m := by
  funext j
  by_cases h : o ≤ j ∧ j < o + (m.load o n).length
  · obtain ⟨k, rfl⟩ : ∃ k : Nat, j = o + k := ⟨(j - o).toNat, by omega⟩
    rw [store_in (by omega), getD_load (by rw [length_load] at h; omega)]
  · exact store_out h

end Plane

/-! ## Grids -/

structure Grid where
  width : Int
  height : Int
  pitch : Int
  bpp : Nat
  deriving DecidableEq, Repr

namespace Grid

structure Valid (g : Grid) : Prop where
  bpp_pos : 0 < g.bpp
  width_nonneg : 0 ≤ g.width
  height_nonneg : 0 ≤ g.height
  pitch_le : g.width * g.bpp ≤ g.pitch

/-- Where a pixel begins. -/
def offset (g : Grid) (p : Int × Int) : Int := g.pitch * p.2 + p.1 * g.bpp

/-- The pixels of the picture. -/
def Has (g : Grid) (p : Int × Int) : Prop := 0 ≤ p.1 ∧ p.1 < g.width ∧ 0 ≤ p.2 ∧ p.2 < g.height

instance (g : Grid) (p : Int × Int) : Decidable (g.Has p) := inferInstanceAs (Decidable (_ ∧ _))

variable {g : Grid} {p q : Int × Int}

/-- A byte is of one pixel at most. -/
theorem offset_inj (h : g.Valid) (hp : g.Has p) (hq : g.Has q) {k l : Nat} (hk : k < g.bpp)
    (hl : l < g.bpp) (heq : g.offset p + k = g.offset q + l) : p = q ∧ k = l := by
  obtain ⟨x, y⟩ := p
  obtain ⟨x', y'⟩ := q
  obtain ⟨hx0, hx, -, -⟩ := hp
  obtain ⟨hx0', hx', -, -⟩ := hq
  have hpitch := h.pitch_le
  simp only [offset] at hx0 hx hx0' hx' heq
  have hb : (0 : Int) < g.bpp := by have := h.bpp_pos; omega
  -- the rest of a row is within its pitch
  have hrow : ∀ {x : Int} {k : Nat}, 0 ≤ x → x < g.width → k < g.bpp →
      0 ≤ x * g.bpp + k ∧ x * g.bpp + k < g.pitch := by
    intro x k h0 h1 hk
    have h2 : (x + 1) * g.bpp ≤ g.width * g.bpp := Int.mul_le_mul_of_nonneg_right (by omega) hb.le
    have h3 : 0 ≤ x * (g.bpp : Int) := Int.mul_nonneg h0 hb.le
    rw [Int.add_mul, Int.one_mul] at h2
    constructor <;> omega
  obtain ⟨hr0, hr1⟩ := hrow hx0 hx hk
  obtain ⟨hs0, hs1⟩ := hrow hx0' hx' hl
  have hdiv : ∀ {r y : Int}, 0 ≤ r → r < g.pitch → (g.pitch * y + r) / g.pitch = y :=
    fun h0 h1 => by
      rw [Int.add_comm, Int.add_mul_ediv_left _ _ (by omega), Int.ediv_eq_zero_of_lt h0 h1,
        Int.zero_add]
  have hy : y = y' := by
    rw [← hdiv hr0 hr1 (y := y), ← hdiv hs0 hs1 (y := y')]
    congr 1
    omega
  subst hy
  have hcol : ∀ {x : Int} {k : Nat}, k < g.bpp → (x * g.bpp + k) / g.bpp = x := fun {x k} hk => by
    rw [Int.add_comm, Int.add_mul_ediv_right _ _ hb.ne',
      Int.ediv_eq_zero_of_lt (Int.natCast_nonneg k) (by omega), Int.zero_add]
  have hx' : x = x' := by
    rw [← hcol hk (x := x), ← hcol hl (x := x')]
    congr 1
    omega
  subst hx'
  exact ⟨rfl, by omega⟩

/-- The byte is one of the pixel's. -/
def InPixel (g : Grid) (p : Int × Int) (j : Int) : Prop :=
  g.offset p ≤ j ∧ j < g.offset p + g.bpp

/-- The same bytes at each of the pixels. -/
def paint (g : Grid) (d : List Byte) (m : Plane) (ps : List (Int × Int)) : Plane :=
  ps.foldl (fun m p => m.store (g.offset p) d) m

@[simp] theorem paint_nil (g : Grid) (d : List Byte) (m : Plane) : g.paint d m [] = m := rfl

theorem paint_cons (g : Grid) (d : List Byte) (m : Plane) (p : Int × Int) (ps : List (Int × Int)) :
    g.paint d m (p :: ps) = g.paint d (m.store (g.offset p) d) ps := rfl

theorem paint_append (g : Grid) (d : List Byte) (m : Plane) (ps qs : List (Int × Int)) :
    g.paint d m (ps ++ qs) = g.paint d (g.paint d m ps) qs := List.foldl_append

/-- What is changed is of the pixels. -/
theorem paint_out {d : List Byte} (hd : d.length = g.bpp) {m : Plane} {ps : List (Int × Int)}
    {j : Int} (h : ∀ p ∈ ps, ¬ g.InPixel p j) : g.paint d m ps j = m j := by
  induction ps generalizing m with
  | nil => rfl
  | cons p ps ih =>
    rw [paint_cons, ih fun q hq => h q (List.mem_cons_of_mem _ hq)]
    refine Plane.store_out ?_
    rw [hd]
    exact h p List.mem_cons_self

/-- The pixels have the bytes. -/
theorem paint_in {d : List Byte} (hv : g.Valid) (hd : d.length = g.bpp) {m : Plane}
    {ps : List (Int × Int)} (hps : ∀ p ∈ ps, g.Has p) (hp : p ∈ ps) {k : Nat} (hk : k < g.bpp) :
    g.paint d m ps (g.offset p + k) = d.getD k 0 := by
  induction ps using List.reverseRecOn with
  | nil => exact absurd hp List.not_mem_nil
  | append_singleton ps q ih =>
    rw [paint_append, paint_cons, paint_nil]
    by_cases hin : g.InPixel q (g.offset p + k)
    · -- the last pixel that the byte is of is the same one
      obtain ⟨h0, h1⟩ := hin
      have hq : g.Has q := hps q (List.mem_append_right _ List.mem_cons_self)
      obtain ⟨l, hl⟩ : ∃ l : Nat, g.offset p + k = g.offset q + l :=
        ⟨(g.offset p + k - g.offset q).toNat, by omega⟩
      obtain ⟨-, rfl⟩ := offset_inj hv (hps p hp) hq hk (by omega) hl
      rw [hl]
      exact Plane.store_in (by omega)
    · have hp' : p ∈ ps := by
        rcases List.mem_append.mp hp with hp | hp
        · exact hp
        · obtain rfl := List.mem_singleton.mp hp
          exact absurd ⟨by omega, by omega⟩ hin
      have hout : ¬ (g.offset q ≤ g.offset p + k ∧ g.offset p + k < g.offset q + d.length) := by
        rw [hd]
        exact hin
      rw [Plane.store_out hout]
      exact ih (fun p hp => hps p (List.mem_append_left _ hp)) hp'

/-- At each of the pixels what is made of its bytes. -/
def update (g : Grid) (f : Int × Int → List Byte → List Byte) (m : Plane)
    (ps : List (Int × Int)) : Plane :=
  ps.foldl (fun m p => m.store (g.offset p) (f p (m.load (g.offset p) g.bpp))) m

section Update

variable {f f' : Int × Int → List Byte → List Byte} {m : Plane} {ps : List (Int × Int)}

theorem update_cons (m : Plane) (p : Int × Int) (ps : List (Int × Int)) :
    g.update f m (p :: ps) =
      g.update f (m.store (g.offset p) (f p (m.load (g.offset p) g.bpp))) ps := rfl

theorem update_append (m : Plane) (ps qs : List (Int × Int)) :
    g.update f m (ps ++ qs) = g.update f (g.update f m ps) qs := List.foldl_append

theorem update_congr (h : ∀ p ∈ ps, ∀ d, d.length = g.bpp → f p d = f' p d) (m : Plane) :
    g.update f m ps = g.update f' m ps := by
  unfold update
  refine List.foldl_ext _ _ _ fun m p hp => ?_
  rw [h p hp _ (Plane.length_load ..)]

/-- The bytes that are stored are as many as those of a pixel. -/
def KeepsLength (g : Grid) (f : Int × Int → List Byte → List Byte) : Prop :=
  ∀ p d, d.length = g.bpp → (f p d).length = g.bpp

theorem update_out (hf : g.KeepsLength f) {j : Int} (h : ∀ p ∈ ps, ¬ g.InPixel p j) :
    g.update f m ps j = m j := by
  induction ps generalizing m with
  | nil => rfl
  | cons p ps ih =>
    rw [update_cons, ih fun q hq => h q (List.mem_cons_of_mem _ hq)]
    refine Plane.store_out ?_
    rw [hf p _ (Plane.length_load ..)]
    exact h p List.mem_cons_self

/-- The bytes of two pixels are different ones. -/
theorem not_inPixel (hv : g.Valid) (hp : g.Has p) (hq : g.Has q) (hne : p ≠ q) {k : Nat}
    (hk : k < g.bpp) : ¬ g.InPixel q (g.offset p + k) := by
  rintro ⟨h0, h1⟩
  obtain ⟨l, hl⟩ : ∃ l : Nat, g.offset p + k = g.offset q + l :=
    ⟨(g.offset p + k - g.offset q).toNat, by omega⟩
  exact hne (offset_inj hv hp hq hk (by omega) hl).1

/-- Each pixel has what is made of the bytes it had. -/
theorem load_update (hv : g.Valid) (hf : g.KeepsLength f) (hps : ∀ p ∈ ps, g.Has p)
    (hnd : ps.Nodup) (hp : p ∈ ps) :
    (g.update f m ps).load (g.offset p) g.bpp = f p (m.load (g.offset p) g.bpp) := by
  induction ps generalizing m with
  | nil => exact absurd hp List.not_mem_nil
  | cons q ps ih =>
    obtain ⟨hq, hnd⟩ := List.nodup_cons.mp hnd
    have hgp : g.Has p := hps p hp
    have hlen := hf q _ (Plane.length_load m (g.offset q) g.bpp)
    rw [update_cons]
    by_cases hpq : p = q
    · subst hpq
      -- no other pixel changes its bytes
      have hlast : ∀ m' : Plane, (g.update f m' ps).load (g.offset p) g.bpp =
          m'.load (g.offset p) g.bpp := fun m' => Plane.load_congr fun k hk =>
        update_out hf fun r hr => not_inPixel hv hgp (hps r (List.mem_cons_of_mem _ hr))
          (fun h => hq (h ▸ hr)) hk
      have hsame := Plane.load_store m (g.offset p) (f p (m.load (g.offset p) g.bpp))
      rw [hlen] at hsame
      rw [hlast, hsame]
    · have hkept : (m.store (g.offset q) (f q (m.load (g.offset q) g.bpp))).load
          (g.offset p) g.bpp = m.load (g.offset p) g.bpp := Plane.load_congr fun k hk => by
        refine Plane.store_out ?_
        rw [hlen]
        exact not_inPixel hv hgp (hps q List.mem_cons_self) hpq hk
      rw [ih (fun r hr => hps r (List.mem_cons_of_mem _ hr)) hnd
        ((List.mem_cons.mp hp).resolve_left hpq), hkept]

/-- Two updates of different pixels are the same just when each pixel gets the same. -/
theorem update_eq_iff (hv : g.Valid) (hf : g.KeepsLength f) (hf' : g.KeepsLength f')
    (hps : ∀ p ∈ ps, g.Has p) (hnd : ps.Nodup) :
    g.update f m ps = g.update f' m ps ↔
      ∀ p ∈ ps, f p (m.load (g.offset p) g.bpp) = f' p (m.load (g.offset p) g.bpp) := by
  constructor
  · intro h p hp
    rw [← load_update hv hf hps hnd hp, ← load_update hv hf' hps hnd hp, h]
  · intro h
    funext j
    by_cases hj : ∃ p ∈ ps, g.InPixel p j
    · obtain ⟨p, hp, h0, h1⟩ := hj
      obtain ⟨k, rfl⟩ : ∃ k : Nat, j = g.offset p + k := ⟨(j - g.offset p).toNat, by omega⟩
      have hk : k < g.bpp := by omega
      have hbyte : ∀ m' : Plane, m' (g.offset p + k) = (m'.load (g.offset p) g.bpp).getD k 0 :=
        fun m' => (Plane.getD_load hk).symm
      rw [hbyte (g.update f m ps), hbyte (g.update f' m ps), load_update hv hf hps hnd hp,
        load_update hv hf' hps hnd hp, h p hp]
    · have hout : ∀ p ∈ ps, ¬ g.InPixel p j := fun p hp hin => hj ⟨p, hp, hin⟩
      rw [update_out hf hout, update_out hf' hout]

end Update

end Grid

end VendorAmlogic.Lib
