import Mathlib.Tactic
import VendorAmlogic.Lib.Run

/-!
# Parsers that are fed in pieces

A parser looks at the data it has and takes an item from its front, or keeps
some of the data until there is more. `feedAll_unique`: where what it does is not
changed by data behind, the items do not depend on how the data is cut.
-/

namespace VendorAmlogic.Lib

/-- What a parser does with the data it has. -/
inductive Taken (ε α : Type) where
  | item (e : ε) (rest : List α)
  | more (kept : List α)
  | stuck
  deriving DecidableEq

section
variable {ε α : Type}

/-- All items of the data, and what is kept. -/
def drain (step : List α → Taken ε α) : Nat → List α → Option (List ε × List α)
  | 0, _ => none
  | fuel + 1, d =>
    match step d with
    | .item e rest => (drain step fuel rest).map fun r => (e :: r.1, r.2)
    | .more kept => some ([], kept)
    | .stuck => none

/-- The items of some chunks, with `b` kept from before. -/
def feedAll (step : List α → Taken ε α) : List α → List (List α) → Option (List ε × List α)
  | b, [] => some ([], b)
  | b, c :: cs => do
    let (es, k) ← drain step ((b ++ c).length + 1) (b ++ c)
    let (es', k') ← feedAll step k cs
    some (es ++ es', k')

/-- The data that is left after some of the items of `d`. -/
inductive Left (step : List α → Taken ε α) (d : List α) : List α → Prop
  | refl : Left step d d
  | item {r rest : List α} {e : ε} (h : Left step d r) (he : step r = .item e rest) : Left step d rest

inductive Drains (step : List α → Taken ε α) : List α → List ε → List α → Prop
  | item {d rest k : List α} {e : ε} {es : List ε} (he : step d = .item e rest)
      (h : Drains step rest es k) : Drains step d (e :: es) k
  | more {d k : List α} (hm : step d = .more k) : Drains step d [] k

inductive Feeds (step : List α → Taken ε α) : List α → List (List α) → List ε → List α → Prop
  | nil {b : List α} : Feeds step b [] [] b
  | cons {b c k k' : List α} {cs : List (List α)} {es es' : List ε}
      (h : Drains step (b ++ c) es k) (hs : Feeds step k cs es' k') :
      Feeds step b (c :: cs) (es ++ es') k'

/-- More data behind `d` does not change what is done with it, where all the data is `Good`. -/
structure Incremental (step : List α → Taken ε α) (Good : List α → Prop) : Prop where
  shorter : ∀ {d rest e}, step d = .item e rest → rest.length < d.length
  item_append : ∀ {d rest e x}, Good (d ++ x) → step d = .item e rest →
    step (d ++ x) = .item e (rest ++ x)
  more_append : ∀ {d k x}, Good (d ++ x) → step d = .more k →
    step (k ++ x) = step (d ++ x) ∧ Good (k ++ x)
  kept : ∀ {d k}, step d = .more k → step k = .more k
  total : ∀ {d x}, Good (d ++ x) → step d ≠ .stuck

variable {step : List α → Taken ε α} {Good : List α → Prop} {d x k : List α} {es : List ε}

theorem Left.tail {e : ε} {rest r : List α} (he : step d = .item e rest) (h : Left step rest r) :
    Left step d r := by
  induction h with
  | refl => exact .item .refl he
  | item _ he' ih => exact .item ih he'

theorem Left.head {r : List α} (h : Left step d r) :
    r = d ∨ ∃ e rest, step d = .item e rest ∧ Left step rest r := by
  induction h with
  | refl => exact .inl rfl
  | item h he ih =>
    rcases ih with rfl | ⟨e, rest, he', hl⟩
    · exact .inr ⟨_, _, he, .refl⟩
    · exact .inr ⟨e, rest, he', .item hl he⟩

/-- Only what the parser does with the data matters. -/
theorem Left.of_step {d' r : List α} (hs : step d' = step d) (hg : Good d') (h : Left step d' r)
    (hd : ∀ r, Left step d r → Good r) : Good r := by
  have hr : r = d' ∨ Left step d r := by
    induction h with
    | refl => exact .inl rfl
    | item _ he ih =>
      rcases ih with rfl | h
      · exact .inr (.item .refl (hs ▸ he))
      · exact .inr (.item h he)
  rcases hr with rfl | h
  · exact hg
  · exact hd r h

theorem Drains.of_step {d' : List α} (hs : step d' = step d) (h : Drains step d' es k) :
    Drains step d es k := by
  cases h with
  | item he h => exact .item (hs ▸ he) h
  | more hm => exact .more (hs ▸ hm)

theorem Drains.unique {es' : List ε} {k' : List α} (h : Drains step d es k)
    (h' : Drains step d es' k') : es = es' ∧ k = k' := by
  induction h generalizing es' k' with
  | item he h ih =>
    cases h' with
    | item he' h' =>
      cases he.symm.trans he'
      obtain ⟨rfl, rfl⟩ := ih h'
      exact ⟨rfl, rfl⟩
    | more hm => cases he.symm.trans hm
  | more hm =>
    cases h' with
    | item he' h' => cases hm.symm.trans he'
    | more hm' =>
      cases hm.symm.trans hm'
      exact ⟨rfl, rfl⟩

/-- The parser is not stuck where it drains. -/
theorem Drains.ne_stuck {r : List α} (h : Drains step d es k) (hl : Left step d r) :
    step r ≠ .stuck := by
  induction h with
  | item he _ ih =>
    rcases hl.head with rfl | ⟨e, rest, he', hl⟩
    · rw [he]
      exact nofun
    · cases he.symm.trans he'
      exact ih hl
  | more hm =>
    rcases hl.head with rfl | ⟨e, rest, he', -⟩
    · rw [hm]
      exact nofun
    · cases hm.symm.trans he'

/-- Draining some data that has `x` behind it. -/
theorem drains_total (hi : Incremental step Good) (hg : ∀ r, Left step (d ++ x) r → Good r) :
    ∃ es k, Drains step d es k ∧ ∀ r, Left step (k ++ x) r → Good r := by
  induction hn : d.length using Nat.strongRecOn generalizing d with
  | ind n ih =>
    have hd := hg _ .refl
    cases hs : step d with
    | item e rest =>
      obtain ⟨es, k, h, hk⟩ := ih rest.length (hn ▸ hi.shorter hs)
        (fun r hr => hg r (hr.tail (hi.item_append hd hs))) rfl
      exact ⟨e :: es, k, .item hs h, hk⟩
    | more k =>
      obtain ⟨hsame, hgk⟩ := hi.more_append hd hs
      exact ⟨[], k, .more hs, fun r hr => hr.of_step hsame hgk hg⟩
    | stuck => exact absurd hs (hi.total hd)

/-- What was kept goes on as the data did. -/
theorem Drains.append {es' : List ε} {k' : List α} (hi : Incremental step Good)
    (h : Drains step d es k) (hg : ∀ r, Left step (d ++ x) r → Good r)
    (h' : Drains step (k ++ x) es' k') : Drains step (d ++ x) (es ++ es') k' := by
  induction h with
  | item he h ih =>
    have he' := hi.item_append (hg _ .refl) he
    exact .item he' (ih (fun r hr => hg r (hr.tail he')) h')
  | more hm => exact h'.of_step (hi.more_append (hg _ .refl) hm).1

theorem Drains.kept (hi : Incremental step Good) (h : Drains step d es k) : step k = .more k := by
  induction h with
  | item _ _ ih => exact ih
  | more hm => exact hi.kept hm

theorem feeds_total (hi : Incremental step Good) {cs : List (List α)} {b : List α}
    (hg : ∀ r, Left step (b ++ cs.flatten) r → Good r) : ∃ es k, Feeds step b cs es k := by
  induction cs generalizing b with
  | nil => exact ⟨[], b, .nil⟩
  | cons c cs ih =>
    rw [List.flatten_cons, ← List.append_assoc] at hg
    obtain ⟨es, k, h, hk⟩ := drains_total hi hg
    obtain ⟨es', k', h'⟩ := ih hk
    exact ⟨es ++ es', k', .cons h h'⟩

/-- **The chunks do not matter**: they are drained as they are all at once. -/
theorem Feeds.flatten (hi : Incremental step Good) {cs : List (List α)} {b : List α}
    (h : Feeds step b cs es k) (hb : step b = .more b)
    (hg : ∀ r, Left step (b ++ cs.flatten) r → Good r) : Drains step (b ++ cs.flatten) es k := by
  induction h with
  | nil =>
    rw [List.flatten_nil, List.append_nil]
    exact .more hb
  | @cons b c k k' cs es es' h hs ih =>
    rw [List.flatten_cons, ← List.append_assoc] at hg ⊢
    obtain ⟨es₁, k₁, h₁, hk⟩ := drains_total hi hg
    obtain ⟨rfl, rfl⟩ := h.unique h₁
    exact h.append hi hg (ih (h.kept hi) hk)

/-! ## Running the parser -/

theorem Drains.drain_eq (hi : Incremental step Good) (h : Drains step d es k) {fuel : Nat}
    (hf : d.length < fuel) : drain step fuel d = some (es, k) := by
  induction h generalizing fuel with
  | item he h ih =>
    obtain ⟨fuel, rfl⟩ : ∃ n, fuel = n + 1 := ⟨fuel - 1, by omega⟩
    have := hi.shorter he
    rw [drain, he]
    dsimp only
    rw [ih (by omega)]
    rfl
  | more hm =>
    obtain ⟨fuel, rfl⟩ : ∃ n, fuel = n + 1 := ⟨fuel - 1, by omega⟩
    rw [drain, hm]

theorem Feeds.feedAll_eq (hi : Incremental step Good) {cs : List (List α)} {b : List α}
    (h : Feeds step b cs es k) : feedAll step b cs = some (es, k) := by
  induction h with
  | nil => rfl
  | cons h hs ih =>
    rw [feedAll, h.drain_eq hi (Nat.lt_succ_self _)]
    show (feedAll step _ _).bind _ = _
    rw [ih]
    rfl

/-- **Two ways of cutting the same data** give the same items and keep the same. -/
theorem feedAll_unique (hi : Incremental step Good) (h0 : step [] = .more [])
    {cs cs' : List (List α)} (hcs : cs.flatten = cs'.flatten)
    (hg : ∀ r, Left step cs.flatten r → Good r) :
    ∃ r, feedAll step [] cs = some r ∧ feedAll step [] cs' = some r := by
  obtain ⟨es, k, h⟩ := feeds_total (b := []) hi hg
  obtain ⟨es', k', h'⟩ := feeds_total (b := []) hi (hcs ▸ hg)
  have h1 := h.flatten hi h0 hg
  have h2 := h'.flatten hi h0 (hcs ▸ hg)
  rw [← hcs] at h2
  obtain ⟨rfl, rfl⟩ := h1.unique h2
  exact ⟨(es, k), h.feedAll_eq hi, h'.feedAll_eq hi⟩

/-! ## Threads that feed the parser -/

/-- **A thread that drains its data at every read.** It keeps `left` of it from read to read, a read
brings a `chunk`, and it puts out what it sees in the items. -/
theorem Feeds.run_eq {β σ ο : Type} {thread : σ → List β → σ × List ο} {ok : σ → List β → Prop}
    (Inv : σ → Prop) (left : σ → List α) (chunk : List β → List α) (view : List ε → List ο)
    (hi : Incremental step Good) (hnil : view [] = [])
    (happ : ∀ es es', view (es ++ es') = view es ++ view es')
    (hstep : ∀ {s c es k}, Inv s → ok s c → step (left s) = .more (left s) →
      Drains step (left s ++ chunk c) es k →
      (thread s c).2 = view es ∧ left (thread s c).1 = k ∧ Inv (thread s c).1)
    {cs : List (List β)} {s : σ} (hs : Inv s) (hkept : step (left s) = .more (left s))
    (hok : Each ok thread s cs) (hf : Feeds step (left s) (cs.map chunk) es k) :
    (run thread s cs).2.flatten = view es ∧ left (run thread s cs).1 = k := by
  induction cs generalizing s es with
  | nil =>
    cases hf
    exact ⟨hnil.symm, rfl⟩
  | cons c cs ih =>
    cases hf with
    | cons hd hf =>
      obtain ⟨hout, hleft, hinv⟩ := hstep hs hok.1 hkept hd
      obtain ⟨h1, h2⟩ := ih hinv (by rw [hleft]; exact hd.kept hi) hok.2 (by rw [hleft]; exact hf)
      rw [run_cons, List.flatten_cons, hout, h1, happ]
      exact ⟨rfl, h2⟩

end

end VendorAmlogic.Lib
