import VendorAmlogic.Lib.Bytes
import VendorAmlogic.Lib.SortedBy
import Mathlib.Data.List.TakeWhile

/-!
# Caption blocks in display order

`aml_h264_reorder_user_data` of `am_userdata/aml/aml.c`. Caption blocks come in
decoding order, each with the picture order count of its picture; a block of
count 0 begins a new group of pictures. The blocks are kept in a list and
leave it least count first, when the list is full or a new group begins.
`write_package` is set before the device thread is started.
-/

namespace VendorAmlogic.Userdata

open VendorAmlogic.Lib

/-! ## The source -/

def INVALID_POC : Int := 0xFFFFFFF

def MAX_POC_CACHE : Nat := 5

/-- `aml_cc_block_t`. -/
structure CcBlock where
  poc : Int
  buf : List Byte
  deriving DecidableEq

/-- The blocks behind the list header, and those given to `write_package`. -/
structure Reorder where
  cache : List CcBlock := []
  written : List CcBlock := []
  deriving DecidableEq

/-- `aml_h264_get_min_poc`. -/
def getMinPoc (cache : List CcBlock) : Int :=
  cache.foldl (fun minPoc b => if minPoc < b.poc then minPoc else b.poc) INVALID_POC

/-- `aml_h264_userdata_add`. -/
def userdataAdd (s : Reorder) (b : CcBlock) : Reorder := { s with cache := s.cache ++ [b] }

/-- `aml_h264_userdata_push`; `none` is the null pointer it follows when no block has the
count. -/
def userdataPush (s : Reorder) (minPoc : Int) : Option Reorder :=
  match s.cache.span (fun b => minPoc ≠ b.poc) with
  | (_, []) => none
  | (before, b :: after) => some ⟨before ++ after, s.written ++ [b]⟩

/-- The loop that empties the list. -/
def pushAll : Nat → Reorder → Option Reorder
  | 0, s => if s.cache = [] then some s else none
  | fuel + 1, s =>
    if s.cache = [] then some s
    else (userdataPush s (getMinPoc s.cache)).bind (pushAll fuel)

/-- `aml_h264_reorder_user_data`. Each round of the loop frees a block. -/
def reorderUserData (s : Reorder) (b : CcBlock) : Option Reorder :=
  if b.poc = 0 then
    if s.cache = [] then some (userdataAdd s b)
    else (pushAll s.cache.length s).map (userdataAdd · b)
  else if MAX_POC_CACHE < s.cache.length then
    let minPoc := getMinPoc s.cache
    if minPoc ≠ INVALID_POC then (userdataPush s minPoc).map (userdataAdd · b)
    else some (userdataAdd s b)
  else some (userdataAdd s b)

/-- The blocks of a stream, one after the other. -/
def reorderAll (blocks : List CcBlock) : Option Reorder := blocks.foldlM reorderUserData {}

/-! ## Groups of pictures -/

/-- The blocks before the first one of count 0, then a list for each such block with the blocks
behind it. -/
def groups : List CcBlock → List CcBlock × List (List CcBlock)
  | [] => ([], [])
  | b :: bs =>
    let (g, gs) := groups bs
    if b.poc = 0 then ([], (b :: g) :: gs) else (b :: g, gs)

/-- Every block comes after at most `MAX_POC_CACHE` blocks of `group`, the blocks since the last
one of count 0, with a larger count. -/
def NearlyOrdered : List CcBlock → List CcBlock → Prop
  | _, [] => True
  | group, b :: bs =>
    (b.poc ≠ 0 → group.countP (fun a => b.poc < a.poc) ≤ MAX_POC_CACHE) ∧
      NearlyOrdered (if b.poc = 0 then [b] else group ++ [b]) bs

instance instDecidableNearlyOrdered :
    ∀ group bs, Decidable (NearlyOrdered group bs)
  | _, [] => isTrue trivial
  | group, b :: bs =>
    have : Decidable (NearlyOrdered (if b.poc = 0 then [b] else group ++ [b]) bs) :=
      instDecidableNearlyOrdered _ bs
    inferInstanceAs (Decidable (_ ∧ _))

/-- What is written of a stream, and then `rest`: the blocks left in the list, by count. Each
group comes out in display order. -/
structure Restored (blocks : List CcBlock) (s : Reorder) (rest : List CcBlock) : Prop where
  rest_sorted : SortedBy CcBlock.poc s.cache rest
  perm : ((s.written ++ rest).map CcBlock.buf).Perm (blocks.map CcBlock.buf)
  ordered : ∃ outs, List.Forall₂ (SortedBy CcBlock.poc) ((groups blocks).1 :: (groups blocks).2) outs ∧
    s.written ++ rest = outs.flatten

/-! ## The least count -/

theorem foldl_minPoc_le (cache : List CcBlock) (m : Int) :
    cache.foldl (fun minPoc b => if minPoc < b.poc then minPoc else b.poc) m ≤ m ∧
      ∀ b ∈ cache,
        cache.foldl (fun minPoc b => if minPoc < b.poc then minPoc else b.poc) m ≤ b.poc := by
  induction cache generalizing m with
  | nil => exact ⟨le_refl m, fun _ h => absurd h List.not_mem_nil⟩
  | cons a cache ih =>
    obtain ⟨h1, h2⟩ := ih (if m < a.poc then m else a.poc)
    have hm : (if m < a.poc then m else a.poc) ≤ m ∧ (if m < a.poc then m else a.poc) ≤ a.poc := by
      split <;> omega
    refine ⟨h1.trans hm.1, fun b hb => ?_⟩
    rcases List.mem_cons.1 hb with rfl | hb
    · exact h1.trans hm.2
    · exact h2 b hb

theorem foldl_minPoc_mem (cache : List CcBlock) (m : Int) :
    cache.foldl (fun minPoc b => if minPoc < b.poc then minPoc else b.poc) m = m ∨
      ∃ b ∈ cache,
        cache.foldl (fun minPoc b => if minPoc < b.poc then minPoc else b.poc) m = b.poc := by
  induction cache generalizing m with
  | nil => exact .inl rfl
  | cons a cache ih =>
    rcases ih (if m < a.poc then m else a.poc) with h | ⟨b, hb, h⟩
    · by_cases hm : m < a.poc
      · exact .inl (h.trans (if_pos hm))
      · exact .inr ⟨a, List.mem_cons_self, h.trans (if_neg hm)⟩
    · exact .inr ⟨b, List.mem_cons_of_mem _ hb, h⟩

/-- Blocks of the stream have a count below `INVALID_POC`. -/
def Counted (blocks : List CcBlock) : Prop := ∀ b ∈ blocks, b.poc < INVALID_POC

theorem getMinPoc_lt {cache : List CcBlock} (hc : Counted cache) (h : cache ≠ []) :
    getMinPoc cache < INVALID_POC := by
  obtain ⟨b, hb⟩ := List.exists_mem_of_ne_nil cache h
  exact ((foldl_minPoc_le cache INVALID_POC).2 b hb).trans_lt (hc b hb)

theorem getMinPoc_mem {cache : List CcBlock} (hc : Counted cache) (h : cache ≠ []) :
    ∃ b ∈ cache, getMinPoc cache = b.poc := by
  rcases foldl_minPoc_mem cache INVALID_POC with h' | h'
  · exact absurd h' (getMinPoc_lt hc h).ne
  · exact h'

/-- The block that leaves the list is the first one of least count. -/
theorem userdataPush_least {s : Reorder} (hc : Counted s.cache) (h : s.cache ≠ []) :
    ∃ before b after, s.cache = before ++ b :: after ∧ Least CcBlock.poc before b after ∧
      userdataPush s (getMinPoc s.cache) = some ⟨before ++ after, s.written ++ [b]⟩ := by
  obtain ⟨a, ha, hmin⟩ := getMinPoc_mem hc h
  set p : CcBlock → Bool := fun b => getMinPoc s.cache ≠ b.poc with hp
  have hsplit := List.takeWhile_append_dropWhile (p := p) (l := s.cache)
  cases hd : s.cache.dropWhile p with
  | nil =>
    have := List.dropWhile_eq_nil_iff.1 hd a ha
    simp [hp, hmin] at this
  | cons b after =>
    have hb : getMinPoc s.cache = b.poc := by
      have := List.head?_dropWhile_not p s.cache
      rw [hd] at this
      simpa [hp] using this
    rw [hd] at hsplit
    refine ⟨s.cache.takeWhile p, b, after, hsplit.symm, ⟨fun c hcm => ?_, fun c hcm => ?_⟩, ?_⟩
    · have := List.mem_takeWhile_imp hcm
      rw [← hb]
      exact fun heq => by simp [hp, heq] at this
    · rw [hsplit] at hcm
      exact hb ▸ (foldl_minPoc_le s.cache INVALID_POC).2 c hcm
    · rw [userdataPush, List.span_eq_takeWhile_dropWhile, hd]

/-! ## A group -/

theorem pushAll_nil {fuel : Nat} {s : Reorder} (h : s.cache = []) :
    pushAll fuel s = some ⟨[], s.written⟩ := by
  cases s with
  | mk cache written =>
    obtain rfl : cache = [] := h
    cases fuel <;> rfl

/-- What the loop does to a window over `xs`, of which `out` has been pushed behind `pre`. -/
theorem pushAll_window {fuel : Nat} {s : Reorder} {xs out pre : List CcBlock}
    (hc : Counted s.cache) (hf : s.cache.length ≤ fuel) (hw : s.written = pre ++ out)
    (hwin : Window CcBlock.poc xs out s.cache) :
    ∃ rest, SortedBy CcBlock.poc xs rest ∧ pushAll fuel s = some ⟨[], pre ++ rest⟩ := by
  induction fuel generalizing s out with
  | zero =>
    have hnil : s.cache = [] := List.length_eq_zero_iff.1 (by omega)
    rw [hnil] at hwin
    exact ⟨out, hwin.sortedBy, by rw [pushAll_nil hnil, hw]⟩
  | succ fuel ih =>
    by_cases hnil : s.cache = []
    · rw [hnil] at hwin
      exact ⟨out, hwin.sortedBy, by rw [pushAll_nil hnil, hw]⟩
    · obtain ⟨before, b, after, hcache, hleast, hpush⟩ := userdataPush_least hc hnil
      rw [hcache] at hwin hf
      have hc' : Counted (before ++ after) := by
        intro a ha
        refine hc a ?_
        rw [hcache]
        rcases List.mem_append.1 ha with ha | ha <;> simp [ha]
      have hf' : (before ++ after).length ≤ fuel := by simp at hf ⊢; omega
      have hw' : s.written ++ [b] = pre ++ (out ++ [b]) := by simp [hw]
      obtain ⟨rest, hrest, hall⟩ := ih (s := ⟨before ++ after, s.written ++ [b]⟩) hc' hf' hw'
        (hwin.take hleast)
      exact ⟨rest, hrest, by simp [pushAll, hnil, hpush, hall]⟩

/-- Emptying the list writes it by count. -/
theorem pushAll_sorted {s : Reorder} (hc : Counted s.cache) :
    ∃ rest, SortedBy CcBlock.poc s.cache rest ∧
      pushAll s.cache.length s = some ⟨[], s.written ++ rest⟩ :=
  pushAll_window hc le_rfl (List.append_nil _).symm (Window.init _ _)

/-- The state within a group: the blocks of the group so far, those of them written behind the
blocks `pre` of earlier groups, and the list. -/
structure InGroup (pre group out : List CcBlock) (s : Reorder) : Prop where
  written : s.written = pre ++ out
  window : Window CcBlock.poc group out s.cache
  len : s.cache.length ≤ MAX_POC_CACHE + 1
  full : out ≠ [] → s.cache.length = MAX_POC_CACHE + 1
  counted : Counted s.cache

/-- A full list has a block that is not behind one that comes late by at most
`MAX_POC_CACHE`. -/
theorem exists_le_of_countP {group cache out : List CcBlock} {b : CcBlock}
    (hperm : (out ++ cache).Perm group) (hlen : cache.length = MAX_POC_CACHE + 1)
    (hlate : group.countP (fun a => b.poc < a.poc) ≤ MAX_POC_CACHE) :
    ∃ a ∈ cache, a.poc ≤ b.poc := by
  by_contra hno
  push Not at hno
  have hall : cache.countP (fun a => b.poc < a.poc) = cache.length :=
    List.countP_eq_length.2 fun a ha => decide_eq_true (hno a ha)
  rw [← hperm.countP_eq, List.countP_append, hall, hlen] at hlate
  omega

/-- A block of another count joins its group. -/
theorem reorderUserData_join {pre group out : List CcBlock} {s : Reorder} {b : CcBlock}
    (h : InGroup pre group out s) (hb : b.poc ≠ 0) (hval : b.poc < INVALID_POC)
    (hlate : group.countP (fun a => b.poc < a.poc) ≤ MAX_POC_CACHE) :
    ∃ s' out', reorderUserData s b = some s' ∧ InGroup pre (group ++ [b]) out' s' := by
  by_cases hfull : MAX_POC_CACHE < s.cache.length
  · have hlen : s.cache.length = MAX_POC_CACHE + 1 := by have := h.len; omega
    have hne : s.cache ≠ [] := by intro h0; simp [h0] at hlen
    obtain ⟨before, a, after, hcache, hleast, hpush⟩ := userdataPush_least h.counted hne
    have hinv : getMinPoc s.cache ≠ INVALID_POC := (getMinPoc_lt h.counted hne).ne
    obtain ⟨c, hc, hcb⟩ := exists_le_of_countP h.window.perm hlen hlate
    have hab : a.poc ≤ b.poc := (hleast.least c (hcache ▸ hc)).trans hcb
    have hwin := h.window
    rw [hcache] at hwin hlen
    have hout : ∀ d ∈ out ++ [a], d.poc ≤ b.poc := by
      intro d hd
      rcases List.mem_append.1 hd with hd | hd
      · exact (hwin.below d hd a (by simp)).trans hab
      · obtain rfl := List.mem_singleton.1 hd
        exact hab
    refine ⟨⟨before ++ after ++ [b], s.written ++ [a]⟩, out ++ [a], ?_, ?_⟩
    · simp [reorderUserData, hb, hfull, hinv, hpush, userdataAdd]
    · refine ⟨by simp [h.written], (hwin.take hleast).arrive hout, ?_, fun _ => ?_, ?_⟩
      · simp at hlen ⊢; omega
      · simp at hlen ⊢; omega
      · intro d hd
        rcases List.mem_append.1 hd with hd | hd
        · refine h.counted d ?_
          rw [hcache]
          rcases List.mem_append.1 hd with hd | hd <;> simp [hd]
        · obtain rfl := List.mem_singleton.1 hd
          exact hval
  · have hout : out = [] := by
      by_contra hne
      have := h.full hne
      omega
    subst hout
    refine ⟨userdataAdd s b, [], by simp [reorderUserData, hb, hfull], ?_⟩
    refine ⟨h.written, h.window.arrive (fun _ hm => absurd hm List.not_mem_nil), ?_, by simp, ?_⟩
    · simp [userdataAdd]; omega
    · intro d hd
      rcases List.mem_append.1 hd with hd | hd
      · exact h.counted d hd
      · obtain rfl := List.mem_singleton.1 hd
        exact hval

/-- A block of count 0 ends the group, which is then written as a whole. -/
theorem reorderUserData_zero {pre group out : List CcBlock} {s : Reorder} {b : CcBlock}
    (h : InGroup pre group out s) (hb : b.poc = 0) :
    ∃ whole s', SortedBy CcBlock.poc group whole ∧ reorderUserData s b = some s' ∧
      InGroup (pre ++ whole) [b] [] s' := by
  obtain ⟨rest, hrest, hall⟩ := pushAll_sorted h.counted
  refine ⟨out ++ rest, ⟨[b], pre ++ (out ++ rest)⟩, h.window.append hrest, ?_, ?_⟩
  · by_cases hnil : s.cache = []
    · have hr : rest = [] := by simpa [hnil] using hrest.perm
      simp [reorderUserData, hb, hnil, userdataAdd, hr, h.written]
    · simp [reorderUserData, hb, hnil, hall, userdataAdd, h.written]
  · refine ⟨by simp, Window.init _ _, by simp [MAX_POC_CACHE], by simp, ?_⟩
    intro d hd
    obtain rfl := List.mem_singleton.1 hd
    simp [hb, INVALID_POC]

/-! ## A stream -/

/-- The rest of a stream, from within a group. -/
theorem foldlM_reorderUserData {bs pre group out : List CcBlock} {s : Reorder}
    (h : InGroup pre group out s) (hc : Counted bs) (hn : NearlyOrdered group bs) :
    ∃ s' pre' last out', bs.foldlM reorderUserData s = some s' ∧ InGroup pre' last out' s' ∧
      ∃ wholes, pre' = pre ++ wholes.flatten ∧ ∃ gs, List.Forall₂ (SortedBy CcBlock.poc) gs wholes ∧
        (group ++ (groups bs).1) :: (groups bs).2 = gs ++ [last] := by
  induction bs generalizing pre group out s with
  | nil => exact ⟨s, pre, group, out, rfl, h, [], by simp, [], .nil, by simp [groups]⟩
  | cons b bs ih =>
    have hcb := hc b List.mem_cons_self
    have hcs : Counted bs := fun a ha => hc a (List.mem_cons_of_mem _ ha)
    obtain ⟨hlate, hn⟩ := hn
    by_cases hb : b.poc = 0
    · obtain ⟨whole, s₁, hwhole, hstep, hin⟩ := reorderUserData_zero h hb
      rw [if_pos hb] at hn
      obtain ⟨s', pre', last, out', hrun, hin', wholes, hpre, gs, hgs, hsplit⟩ := ih hin hcs hn
      refine ⟨s', pre', last, out', by simp [hstep, hrun], hin', whole :: wholes, by simp [hpre],
        group :: gs, .cons hwhole hgs, ?_⟩
      simpa [groups, hb] using hsplit
    · obtain ⟨s₁, out₁, hstep, hin⟩ := reorderUserData_join h hb hcb (hlate hb)
      rw [if_neg hb] at hn
      obtain ⟨s', pre', last, out', hrun, hin', wholes, hpre, gs, hgs, hsplit⟩ := ih hin hcs hn
      refine ⟨s', pre', last, out', by simp [hstep, hrun], hin', wholes, hpre, gs, hgs, ?_⟩
      simpa [groups, hb] using hsplit

theorem inGroup_init : InGroup [] [] [] {} where
  written := rfl
  window := Window.init _ _
  len := Nat.zero_le _
  full := fun h => absurd rfl h
  counted := fun _ h => absurd h List.not_mem_nil

theorem flatten_groups (bs : List CcBlock) :
    ((groups bs).1 :: (groups bs).2).flatten = bs := by
  induction bs with
  | nil => rfl
  | cons b bs ih =>
    by_cases hb : b.poc = 0
    · simpa [groups, hb] using ih
    · simpa [groups, hb] using ih

theorem flatten_perm_of_sortedBy {gs outs : List (List CcBlock)}
    (h : List.Forall₂ (SortedBy CcBlock.poc) gs outs) : outs.flatten.Perm gs.flatten := by
  induction h with
  | nil => exact .refl _
  | cons hg _ ih => exact hg.perm.append ih

theorem NearlyOrdered.of_append {group bs cs : List CcBlock}
    (h : NearlyOrdered group (bs ++ cs)) : NearlyOrdered group bs := by
  induction bs generalizing group with
  | nil => trivial
  | cons b bs ih => exact ⟨h.1, ih h.2⟩

/-- Every stream in which a block is late by at most the size of the list comes out in display
order, and the list never grows beyond one block more. -/
theorem reorderAll_restores (blocks : List CcBlock) (hc : Counted blocks)
    (hn : NearlyOrdered [] blocks) :
    (∃ s rest, reorderAll blocks = some s ∧ Restored blocks s rest) ∧
      ∀ before, before <+: blocks →
        ∃ s, reorderAll before = some s ∧ s.cache.length ≤ MAX_POC_CACHE + 1 := by
  constructor
  · obtain ⟨s, pre, last, out, hrun, hin, wholes, hpre, gs, hgs, hsplit⟩ :=
      foldlM_reorderUserData inGroup_init hc hn
    obtain ⟨rest, hrest, -⟩ := pushAll_sorted hin.counted
    have hall : List.Forall₂ (SortedBy CcBlock.poc) ((groups blocks).1 :: (groups blocks).2)
        (wholes ++ [out ++ rest]) := by
      rw [List.nil_append] at hsplit
      rw [hsplit]
      exact List.rel_append hgs (.cons (hin.window.append hrest) .nil)
    have hout : s.written ++ rest = (wholes ++ [out ++ rest]).flatten := by
      simp [hin.written, hpre]
    refine ⟨s, rest, hrun, hrest, ?_, _, hall, hout⟩
    have hperm := flatten_perm_of_sortedBy hall
    rw [flatten_groups, ← hout] at hperm
    exact hperm.map _
  · rintro before ⟨after, rfl⟩
    obtain ⟨s, _, _, _, hrun, hin, _⟩ := foldlM_reorderUserData inGroup_init
      (fun a ha => hc a (List.mem_append_left _ ha)) hn.of_append
    exact ⟨s, hrun, hin.len⟩

/-- Two groups of a stream with bidirectional pictures. -/
def twoGroups : List CcBlock :=
  [⟨0, [1]⟩, ⟨6, [2]⟩, ⟨2, [3]⟩, ⟨4, [4]⟩, ⟨12, [5]⟩, ⟨8, [6]⟩, ⟨10, [7]⟩, ⟨10, [8]⟩, ⟨0, [9]⟩, ⟨-2, [10]⟩]

theorem reorderAll_restores_twoGroups :
    (∃ s rest, reorderAll twoGroups = some s ∧ Restored twoGroups s rest) ∧
      ∀ before, before <+: twoGroups →
        ∃ s, reorderAll before = some s ∧ s.cache.length ≤ MAX_POC_CACHE + 1 :=
  reorderAll_restores twoGroups (by unfold Counted; decide) (by decide)

end VendorAmlogic.Userdata
