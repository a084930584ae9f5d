import VendorAmlogic.Smc.TransferT0

/-!
# T=0 exchanges with cards that follow ISO 7816-3

Which exchanges `AM_SMC_TransferT0` gets right. A card sends procedure bytes:
NULL, the INS byte for all the data that remains, or its complement for the next
byte; then the status.
-/

namespace VendorAmlogic.Smc

open VendorAmlogic.Lib

inductive Proc where
  | null
  | all
  | one
  deriving DecidableEq, Repr

namespace Proc

def toByte (ins : Byte) : Proc → Byte
  | null => 0x60
  | all => ins
  | one => ins ^^^ 0xFF

/-- How many of the `n` bytes that remain pass behind it. -/
def passes : Proc → Nat → Nat
  | null, _ => 0
  | all, n => n
  | one, _ => 1

/-- The card calls for data while there is some. -/
def Orderly : List Proc → Nat → Prop
  | [], _ => True
  | p :: ps, n => (p = null ∨ 0 < n) ∧ Orderly ps (n - p.passes n)

instance instDecidableOrderly : ∀ (ps : List Proc) (n : Nat), Decidable (Orderly ps n)
  | [], _ => isTrue trivial
  | p :: ps, n =>
    have : Decidable (Orderly ps (n - p.passes n)) := instDecidableOrderly _ _
    inferInstanceAs (Decidable (_ ∧ _))

/-- How many of `n` bytes pass altogether. -/
def asked : List Proc → Nat → Nat
  | [], _ => 0
  | p :: ps, n => p.passes n + asked ps (n - p.passes n)

/-- The procedure bytes, each with what passes behind it. -/
def script (ins : Byte) : List Proc → List Event → List Event
  | [], _ => []
  | p :: ps, es =>
    let n := p.passes es.length
    .sends (p.toByte ins) :: (es.take n ++ script ins ps (es.drop n))

theorem orderly_zero {ps : List Proc} (h : Orderly ps 0) : ∀ p ∈ ps, p = null := by
  induction ps with
  | nil => exact fun _ hp => absurd hp List.not_mem_nil
  | cons p ps ih =>
    obtain ⟨rfl | hpos, hrest⟩ := h
    · intro q hq
      rcases List.mem_cons.mp hq with rfl | hq
      · rfl
      · exact ih hrest q hq
    · exact absurd hpos (Nat.lt_irrefl 0)

/-- Everything passes behind INS. -/
theorem le_asked {ps : List Proc} (h : (ps.filter (· ≠ null)).head? = some all) (n : Nat) :
    n ≤ asked ps n := by
  induction ps with
  | nil => exact absurd h (Option.some_ne_none _).symm
  | cons p ps ih =>
    cases p with
    | null =>
      show n ≤ 0 + asked ps n
      rw [Nat.zero_add]
      exact ih h
    | all => exact Nat.le_add_right _ _
    | one => exact Proc.noConfusion (Option.some.inj h)

end Proc

/-! ## The domain -/

/-- No first byte of a status, as an INS byte must be. -/
abbrev Proper (ins : Byte) : Prop := ins &&& 0xF0 ≠ 0x60 ∧ ins &&& 0xF0 ≠ 0x90

abbrev StartsStatus (sw1 : Byte) : Prop :=
  sw1 ≠ 0x60 ∧ (sw1 &&& 0xF0 = 0x60 ∨ sw1 &&& 0xF0 = 0x90)

/-- A command with the card's side of it; `data` is for the card, `answer` from it. -/
structure Exchange where
  cla : Byte
  ins : Byte
  p1 : Byte
  p2 : Byte
  p3 : Byte
  data : List Byte
  answer : List Byte
  procs : List Proc
  sw1 : Byte
  sw2 : Byte

namespace Exchange

def header (x : Exchange) : List Byte := [x.cla, x.ins, x.p1, x.p2, x.p3]

def payload (x : Exchange) : List Event :=
  if x.data = [] then x.answer.map .sends else List.replicate x.data.length .takes

/-- What the card does once it has the header. -/
def replies (x : Exchange) : List Event :=
  Proc.script x.ins x.procs x.payload ++ [.sends x.sw1, .sends x.sw2]

def card (x : Exchange) : Card := ⟨List.replicate 5 .takes ++ x.replies, []⟩

def passed (x : Exchange) : Nat := Proc.asked x.procs x.payload.length

structure Valid (x : Exchange) : Prop where
  ins_even : x.ins &&& 1 = 0
  ins_status : Proper x.ins
  data_length : x.data = [] ∨ x.data.length = x.p3.toNat
  answer_length :
    x.answer.length = if x.data ≠ [] then 0 else if x.p3 = 0 then 256 else x.p3.toNat
  orderly : Proc.Orderly x.procs x.payload.length
  sw1_status : StartsStatus x.sw1

/-- Success, with the bytes that passed on either side and the status. -/
structure Served (x : Exchange) (a : Answer) : Prop where
  ret_eq : a.ret = AM_SUCCESS
  recv_eq : a.recv = x.answer.take x.passed ++ [x.sw1, x.sw2]
  card_eq : a.card = ⟨[], x.header ++ x.data.take x.passed⟩

/-- For data to the card, no byte is called for singly; 256 bytes from it are not called for as a
whole. -/
def Plain (x : Exchange) : Prop :=
  if x.data ≠ [] then .one ∉ x.procs
  else x.p3 = 0 → (x.procs.filter (· ≠ .null)).head? ≠ some .all

instance (x : Exchange) : Decidable x.Plain :=
  inferInstanceAs (Decidable (if x.data ≠ [] then .one ∉ x.procs
    else x.p3 = 0 → (x.procs.filter (· ≠ .null)).head? ≠ some .all))

end Exchange

/-! ## Rounds of the loop -/

section Rounds

variable {ins sw1 sw2 : Byte} {es : List Event} {got l kept : List Byte} {rxlen byte : Byte}

theorem complement_status (hins : Proper ins) :
    (ins ≠ 0x60 ∧ ¬ (ins &&& 0xF0 = 0x60 ∨ ins &&& 0xF0 = 0x90)) ∧
      ins ^^^ 0xFF ≠ 0x60 ∧
        ¬ ((ins ^^^ 0xFF) &&& 0xF0 = 0x60 ∨ (ins ^^^ 0xFF) &&& 0xF0 = 0x90) ∧
          ¬ (ins ^^^ 0xFF = ins ∨ ins ^^^ 0xFF = ins ^^^ 0x01) := by
  revert ins
  decide

/-- The loop behind a byte that the card sends. -/
theorem t0Loop_sends (fuel : Nat) :
    t0Loop listFifo ins (fuel + 1) ⟨⟨.sends byte :: es, got⟩, l, kept, rxlen⟩ =
      match t0Byte listFifo ins ⟨⟨es, got⟩, l, kept, rxlen⟩ byte with
      | .final ret t' => some (ret, t')
      | .again t' => t0Loop listFifo ins fuel t' := by
  simp only [t0Loop, t0Step, Card.read, Option.map_some, List.getD_cons_zero]
  cases t0Byte listFifo ins ⟨⟨es, got⟩, l, kept, rxlen⟩ byte <;> rfl

theorem t0Loop_status (hsw : StartsStatus sw1) (fuel : Nat) :
    t0Loop listFifo ins (fuel + 1) ⟨⟨[.sends sw1, .sends sw2], got⟩, l, kept, rxlen⟩ =
      some (AM_SUCCESS, ⟨⟨[], got⟩, l, kept ++ [sw1, sw2], rxlen⟩) := by
  rw [t0Loop_sends, t0Byte, if_neg hsw.1, if_pos hsw.2]
  show some (AM_SUCCESS, (⟨⟨[], got⟩, l, kept ++ [sw1] ++ [sw2], rxlen⟩ : T0 (List Byte))) = _
  rw [List.append_assoc]
  rfl

/-- All the data for the card. -/
theorem t0Loop_all_in (hins : Proper ins) (hl : l ≠ []) (fuel : Nat) :
    t0Loop listFifo ins (fuel + 1)
        ⟨⟨.sends ins :: (List.replicate l.length .takes ++ es), got⟩, l, kept, rxlen⟩ =
      t0Loop listFifo ins fuel ⟨⟨es, got ++ l⟩, [], kept, rxlen⟩ := by
  obtain ⟨⟨h60, hsw⟩, -⟩ := complement_status hins
  have hpos : listFifo.avail l > 0 := List.length_pos_of_ne_nil hl
  have hread : listFifo.read l (listFifo.avail l) = (l, []) := by
    show (l.take l.length, l.drop l.length) = _
    rw [List.take_length, List.drop_length]
  rw [t0Loop_sends, t0Byte, if_neg h60, if_neg hsw, if_pos (.inl rfl)]
  simp only [if_pos hpos, hread, Card.write_takes]

/-- What `rxlen` says of the data from the card. -/
theorem t0Loop_all_out (hins : Proper ins) {d : List Byte}
    (hd : rxlen.toNat = d.length) (fuel : Nat) :
    t0Loop listFifo ins (fuel + 1) ⟨⟨.sends ins :: (d.map .sends ++ es), got⟩, [], kept, rxlen⟩ =
      t0Loop listFifo ins fuel ⟨⟨es, got⟩, [], kept ++ d, rxlen⟩ := by
  obtain ⟨⟨h60, hsw⟩, -⟩ := complement_status hins
  have hpos : ¬ listFifo.avail ([] : List Byte) > 0 := Nat.lt_irrefl 0
  rw [t0Loop_sends, t0Byte, if_neg h60, if_neg hsw, if_pos (.inl rfl)]
  simp only [if_neg hpos, hd, Card.read_sends]
  rfl

theorem t0Loop_one_out (hins : Proper ins) (b : Byte) (fuel : Nat) :
    t0Loop listFifo ins (fuel + 1)
        ⟨⟨.sends (ins ^^^ 0xFF) :: .sends b :: es, got⟩, l, kept, rxlen⟩ =
      t0Loop listFifo ins fuel ⟨⟨es, got⟩, l, kept ++ [b], rxlen - 1⟩ := by
  obtain ⟨-, h60, hsw, hne⟩ := complement_status hins
  rw [t0Loop_sends, t0Byte, if_neg h60, if_neg hsw, if_neg hne, if_pos (.inl rfl)]
  rfl

/-- The host reads where the card waits for a byte. -/
theorem t0Loop_one_in (hins : Proper ins) (fuel : Nat) :
    t0Loop listFifo ins (fuel + 1) ⟨⟨.sends (ins ^^^ 0xFF) :: .takes :: es, got⟩, l, kept, rxlen⟩ =
      some (AM_SMC_ERR_TIMEOUT, ⟨⟨.takes :: es, got⟩, l, kept, rxlen⟩) := by
  obtain ⟨-, h60, hsw, hne⟩ := complement_status hins
  rw [t0Loop_sends, t0Byte, if_neg h60, if_neg hsw, if_neg hne, if_pos (.inl rfl)]
  rfl

end Rounds

/-! ## Exchanges that go right -/

section Right

variable {ins sw1 : Byte}

/-- The data for the card, called for as a whole or not at all. -/
theorem t0Loop_in (hins : Proper ins) (hsw : StartsStatus sw1) (sw2 : Byte) {ps : List Proc}
    {l : List Byte} (hps : Proc.Orderly ps l.length) (hone : .one ∉ ps) (got kept : List Byte)
    (rxlen : Byte) {fuel : Nat}
    (hfuel : (Proc.script ins ps (List.replicate l.length .takes)).length < fuel) :
    ∃ l', t0Loop listFifo ins fuel
        ⟨⟨Proc.script ins ps (List.replicate l.length .takes) ++ [.sends sw1, .sends sw2], got⟩, l,
          kept, rxlen⟩ =
      some (AM_SUCCESS, ⟨⟨[], got ++ l.take (Proc.asked ps l.length)⟩, l', kept ++ [sw1, sw2],
        rxlen⟩) := by
  induction ps generalizing l got fuel with
  | nil =>
    obtain ⟨fuel, rfl⟩ := Nat.exists_eq_add_of_lt hfuel
    refine ⟨l, ?_⟩
    show t0Loop listFifo ins (_ + 1) ⟨⟨[.sends sw1, .sends sw2], got⟩, l, kept, rxlen⟩ = _
    rw [t0Loop_status hsw, Proc.asked, List.take_zero, List.append_nil]
  | cons p ps ih =>
    have hone' : Proc.one ∉ ps := fun h => hone (List.mem_cons_of_mem _ h)
    obtain ⟨fuel, rfl⟩ : ∃ n, fuel = n + 1 := ⟨fuel - 1, by omega⟩
    cases p with
    | null =>
      have hfuel' : (Proc.script ins ps (List.replicate l.length .takes)).length < fuel :=
        Nat.lt_of_succ_lt_succ hfuel
      have hasked : Proc.asked (.null :: ps) l.length = Proc.asked ps l.length := Nat.zero_add _
      rw [hasked]
      exact ih hps.2 hone' got hfuel'
    | all =>
      have hl : l ≠ [] := by
        rintro rfl
        exact hps.1.elim Proc.noConfusion (Nat.lt_irrefl 0)
      have hrest : Proc.Orderly ps 0 := by
        have := hps.2
        rwa [Proc.passes, Nat.sub_self] at this
      have hscript : Proc.script ins (.all :: ps) (List.replicate l.length .takes) =
          .sends ins :: (List.replicate l.length .takes ++ Proc.script ins ps []) := by
        rw [Proc.script, Proc.passes, List.take_length, List.drop_length]
        rfl
      have hasked : l.take (Proc.asked (.all :: ps) l.length) = l := by
        rw [Proc.asked, Proc.passes]
        exact List.take_of_length_le (Nat.le_add_right _ _)
      rw [hscript, List.length_cons, List.length_append] at hfuel
      have hfuel' : (Proc.script ins ps []).length < fuel := by omega
      obtain ⟨l', hl'⟩ := ih (l := []) hrest hone' (got ++ l) hfuel'
      refine ⟨l', ?_⟩
      rw [List.take_nil, List.append_nil] at hl'
      rw [hscript, hasked, List.cons_append, List.append_assoc, t0Loop_all_in hins hl]
      exact hl'
    | one => exact absurd List.mem_cons_self hone

/-- The data from the card. -/
theorem t0Loop_out (hins : Proper ins) (hsw : StartsStatus sw1) (sw2 : Byte) {ps : List Proc}
    {d : List Byte} (hps : Proc.Orderly ps d.length) (got kept : List Byte) {rxlen : Byte}
    {fuel : Nat}
    (hlen : d ≠ [] → rxlen = BitVec.ofNat 8 d.length) (hle : d.length ≤ 256)
    (hall : d.length = 256 → (ps.filter (· ≠ .null)).head? ≠ some .all)
    (hfuel : (Proc.script ins ps (d.map .sends)).length < fuel) :
    ∃ n, t0Loop listFifo ins fuel
        ⟨⟨Proc.script ins ps (d.map .sends) ++ [.sends sw1, .sends sw2], got⟩, [], kept, rxlen⟩ =
      some (AM_SUCCESS, ⟨⟨[], got⟩, [], kept ++ (d.take (Proc.asked ps d.length) ++ [sw1, sw2]),
        n⟩) := by
  induction ps generalizing d kept rxlen fuel with
  | nil =>
    obtain ⟨fuel, rfl⟩ := Nat.exists_eq_add_of_lt hfuel
    refine ⟨rxlen, ?_⟩
    show t0Loop listFifo ins (_ + 1) ⟨⟨[.sends sw1, .sends sw2], got⟩, [], kept, rxlen⟩ = _
    rw [t0Loop_status hsw, Proc.asked, List.take_zero, List.nil_append]
  | cons p ps ih =>
    obtain ⟨fuel, rfl⟩ : ∃ n, fuel = n + 1 := ⟨fuel - 1, by omega⟩
    cases p with
    | null =>
      have hfuel' : (Proc.script ins ps (d.map .sends)).length < fuel :=
        Nat.lt_of_succ_lt_succ hfuel
      have hasked : Proc.asked (.null :: ps) d.length = Proc.asked ps d.length := Nat.zero_add _
      rw [hasked]
      exact ih hps.2 kept hlen hle hall hfuel'
    | all =>
      have hd : d ≠ [] := by
        rintro rfl
        exact hps.1.elim Proc.noConfusion (Nat.lt_irrefl 0)
      have hlt : d.length ≠ 256 := fun h => hall h rfl
      have hrx : rxlen.toNat = d.length := by
        rw [hlen hd, BitVec.toNat_ofNat]
        omega
      have hrest : Proc.Orderly ps 0 := by
        have := hps.2
        rwa [Proc.passes, Nat.sub_self] at this
      have hscript : Proc.script ins (.all :: ps) (d.map .sends) =
          .sends ins :: (d.map .sends ++ Proc.script ins ps []) := by
        rw [Proc.script, Proc.passes, List.take_length, List.drop_length]
        rfl
      have hasked : d.take (Proc.asked (.all :: ps) d.length) = d := by
        rw [Proc.asked, Proc.passes]
        exact List.take_of_length_le (Nat.le_add_right _ _)
      rw [hscript, List.length_cons, List.length_append] at hfuel
      have hfuel' : (Proc.script ins ps (([] : List Byte).map .sends)).length < fuel := by
        rw [List.map_nil]
        omega
      obtain ⟨n, hn⟩ := ih (d := []) hrest (kept ++ d) (fun h => absurd rfl h : _ → rxlen = _)
        (Nat.zero_le _) (fun h => absurd h (by decide)) hfuel'
      refine ⟨n, ?_⟩
      rw [List.take_nil, List.nil_append, List.append_assoc] at hn
      rw [hscript, hasked, List.cons_append, List.append_assoc, t0Loop_all_out hins hrx]
      exact hn
    | one =>
      obtain _ | ⟨b, d⟩ := d
      · exact absurd hps.1 (not_or.mpr ⟨Proc.noConfusion, Nat.lt_irrefl 0⟩)
      have hrest : Proc.Orderly ps d.length := hps.2
      have hrx : rxlen - 1 = BitVec.ofNat 8 d.length := by
        rw [hlen (List.cons_ne_nil b d), List.length_cons, BitVec.ofNat_add]
        exact BitVec.add_sub_cancel _ _
      have hle' : d.length < 256 := hle
      have hfuel' : (Proc.script ins ps (d.map .sends)).length < fuel := by
        have : (Proc.script ins ps (d.map .sends)).length + 2 < fuel + 1 := hfuel
        omega
      obtain ⟨n, hn⟩ := ih (d := d) hrest (kept ++ [b]) (fun _ => hrx) hle'.le
        (fun h => absurd h (by omega)) hfuel'
      refine ⟨n, ?_⟩
      have hasked : (b :: d).take (Proc.asked (.one :: ps) (b :: d).length) =
          b :: d.take (Proc.asked ps d.length) := by
        rw [Proc.asked, Proc.passes, Nat.add_comm]
        rfl
      rw [List.append_assoc] at hn
      rw [hasked]
      exact (t0Loop_one_out hins b fuel).trans hn

end Right

/-! ## Exchanges that go wrong -/

/-- A byte that the card is to get singly is never sent. -/
theorem t0Loop_one_fails {ins : Byte} (hins : Proper ins)
    {ps : List Proc} {l : List Byte} (hps : Proc.Orderly ps l.length) (hone : .one ∈ ps)
    (got kept : List Byte) (rxlen : Byte) (es : List Event) {fuel : Nat} {ret : Int}
    {t : T0 (List Byte)}
    (hrun : t0Loop listFifo ins fuel
      ⟨⟨Proc.script ins ps (List.replicate l.length .takes) ++ es, got⟩, l, kept, rxlen⟩ =
        some (ret, t)) : ret ≠ AM_SUCCESS := by
  induction ps generalizing fuel with
  | nil => exact absurd hone List.not_mem_nil
  | cons p ps ih =>
    cases fuel with
    | zero => exact absurd hrun (Option.some_ne_none _).symm
    | succ fuel =>
      cases p with
      | null =>
        have hone' : Proc.one ∈ ps := (List.mem_cons.mp hone).resolve_left Proc.noConfusion
        exact ih hps.2 hone' hrun
      | all =>
        -- behind it there is no more to be called for
        have hrest : Proc.Orderly ps 0 := by
          have := hps.2
          rwa [Proc.passes, Nat.sub_self] at this
        have hone' : Proc.one ∈ ps := (List.mem_cons.mp hone).resolve_left Proc.noConfusion
        exact Proc.noConfusion (Proc.orderly_zero hrest _ hone')
      | one =>
        obtain _ | ⟨b, l⟩ := l
        · exact absurd hps.1 (not_or.mpr ⟨Proc.noConfusion, Nat.lt_irrefl 0⟩)
        have hrun' := (t0Loop_one_in hins fuel).symm.trans hrun
        rw [← (Prod.mk.inj (Option.some.inj hrun')).1]
        decide

/-- How many of the bytes are no NULL bytes. -/
def heavy (bs : List Byte) : Nat := bs.countP (· ≠ 0x60)

def heavyEvents (es : List Event) : Nat :=
  es.countP fun e => match e with
    | .sends b => b ≠ 0x60
    | .takes => false

theorem heavy_append (bs bs' : List Byte) : heavy (bs ++ bs') = heavy bs + heavy bs' :=
  List.countP_append

theorem heavyEvents_append (es es' : List Event) :
    heavyEvents (es ++ es') = heavyEvents es + heavyEvents es' :=
  List.countP_append

theorem heavyEvents_sends (bs : List Byte) : heavyEvents (bs.map .sends) = heavy bs := by
  rw [heavyEvents, List.countP_map]
  rfl

/-- What is received, and what the card may still send of that. -/
def weight (t : T0 (List Byte)) : Nat := heavy t.rxbuf + heavyEvents t.card.script

theorem weight_read {c c' : Card} {n : Nat} {bs : List Byte} (h : c.read n = some (bs, c')) :
    heavyEvents c.script = heavy bs + heavyEvents c'.script := by
  rw [(Card.script_of_read h).2.1, heavyEvents_append, heavyEvents_sends]

theorem weight_write {c c' : Card} {bs : List Byte} (h : c.write bs = some c') :
    heavyEvents c'.script ≤ heavyEvents c.script := by
  induction bs generalizing c with
  | nil =>
    obtain rfl : c = c' := Option.some.inj (by simpa [Card.write] using h)
    exact Nat.le_refl _
  | cons b bs ih =>
    obtain ⟨_ | ⟨_ | _, es⟩, got⟩ := c
    · exact absurd h (Option.some_ne_none _).symm
    · exact absurd h (Option.some_ne_none _).symm
    · have htakes : heavyEvents (.takes :: es) = heavyEvents es :=
        List.countP_cons_of_neg (by decide)
      rw [htakes]
      exact ih h

/-- What a round may do to what it weighs: only the byte it is about may come to it. -/
def Next.Weighs (n extra : Nat) : Next (List Byte) → Prop
  | .again t => weight t ≤ n
  | .final _ t => heavy t.rxbuf ≤ n + extra

theorem t0Byte_weighs (ins : Byte) (t : T0 (List Byte)) (byte : Byte) :
    (t0Byte listFifo ins t byte).Weighs (weight t) (heavy [byte]) := by
  unfold t0Byte
  by_cases h60 : byte = 0x60
  · rw [if_pos h60]
    exact Nat.le_refl _
  rw [if_neg h60]
  by_cases hsw : byte &&& 0xF0 = 0x60 ∨ byte &&& 0xF0 = 0x90
  · rw [if_pos hsw]
    simp only
    split
    · show heavy (t.rxbuf ++ [byte]) ≤ weight t + _
      rw [heavy_append, weight]
      omega
    next dst c hr =>
      have := weight_read hr
      show heavy (t.rxbuf ++ [byte] ++ dst) ≤ weight t + _
      rw [heavy_append, heavy_append, weight]
      omega
  rw [if_neg hsw]
  by_cases hins : byte = ins ∨ byte = ins ^^^ 0x01
  · rw [if_pos hins]
    simp only
    split
    · split
      · exact Nat.le_trans (Nat.le_add_right _ _) (Nat.le_add_right _ _)
      next c hw =>
        have := weight_write hw
        show heavy t.rxbuf + heavyEvents c.script ≤ weight t
        rw [weight]
        omega
    · split
      · exact Nat.le_trans (Nat.le_add_right _ _) (Nat.le_add_right _ _)
      next buf c hr =>
        have := weight_read hr
        show heavy (t.rxbuf ++ buf) + heavyEvents c.script ≤ weight t
        rw [heavy_append, weight]
        omega
  rw [if_neg hins]
  by_cases hone : byte = ins ^^^ 0xFF ∨ byte = ins ^^^ 0xFE
  · rw [if_pos hone]
    split
    · exact Nat.le_trans (Nat.le_add_right _ _) (Nat.le_add_right _ _)
    next buf c hr =>
      have := weight_read hr
      show heavy (t.rxbuf ++ buf) + heavyEvents c.script ≤ weight t
      rw [heavy_append, weight]
      omega
  · rw [if_neg hone]
    exact Nat.le_trans (Nat.le_add_right _ _) (Nat.le_add_right _ _)

theorem t0Loop_weighs {ins : Byte} {fuel : Nat} {t t' : T0 (List Byte)} {ret : Int}
    (hrun : t0Loop listFifo ins fuel t = some (ret, t')) : heavy t'.rxbuf ≤ weight t := by
  induction fuel generalizing t with
  | zero => exact absurd hrun (Option.some_ne_none _).symm
  | succ fuel ih =>
    rw [t0Loop, t0Step] at hrun
    cases hr : t.card.read 1 with
    | none =>
      rw [hr] at hrun
      rw [← (Prod.mk.inj (Option.some.inj hrun)).2]
      exact Nat.le_add_right _ _
    | some r =>
      obtain ⟨bs, c⟩ := r
      obtain ⟨byte, rfl⟩ := List.length_eq_one_iff.mp (Card.script_of_read hr).1
      have hw := t0Byte_weighs ins { t with card := c } byte
      have hc := weight_read hr
      have ht : weight { t with card := c } + heavy [byte] = weight t := by
        show heavy t.rxbuf + heavyEvents c.script + _ = heavy t.rxbuf + _
        omega
      rw [hr] at hrun
      simp only [List.getD_cons_zero] at hrun
      cases hn : t0Byte listFifo ins { t with card := c } byte with
      | again t1 =>
        rw [hn] at hrun hw
        have := ih hrun
        have : weight t1 ≤ weight { t with card := c } := hw
        omega
      | final ret' t1 =>
        rw [hn] at hrun hw
        obtain ⟨-, rfl⟩ := Prod.mk.inj (Option.some.inj hrun)
        have : heavy t1.rxbuf ≤ weight { t with card := c } + heavy [byte] := hw
        omega

/-- A round that ends the exchange with success has received the status in it. -/
theorem length_of_final {ins byte : Byte} {t t' : T0 (List Byte)} (hrx : t.rxbuf = [])
    (h : t0Byte listFifo ins t byte = .final AM_SUCCESS t') : t'.rxbuf.length = 2 := by
  unfold t0Byte at h
  by_cases h60 : byte = 0x60
  · rw [if_pos h60] at h
    cases h
  rw [if_neg h60] at h
  by_cases hsw : byte &&& 0xF0 = 0x60 ∨ byte &&& 0xF0 = 0x90
  · rw [if_pos hsw] at h
    simp only at h
    split at h
    · exact absurd (Next.final.inj h).1 (by decide)
    next dst c hr =>
      rw [← (Next.final.inj h).2]
      show (t.rxbuf ++ [byte] ++ dst).length = 2
      rw [hrx, List.nil_append, List.length_append, (Card.script_of_read hr).1]
      rfl
  rw [if_neg hsw] at h
  by_cases hins : byte = ins ∨ byte = ins ^^^ 0x01
  · rw [if_pos hins] at h
    simp only at h
    split at h
    · split at h
      · exact absurd (Next.final.inj h).1 (by decide)
      · cases h
    · split at h
      · exact absurd (Next.final.inj h).1 (by decide)
      · cases h
  rw [if_neg hins] at h
  by_cases hone : byte = ins ^^^ 0xFF ∨ byte = ins ^^^ 0xFE
  · rw [if_pos hone] at h
    split at h
    · exact absurd (Next.final.inj h).1 (by decide)
    · cases h
  · rw [if_neg hone] at h
    exact absurd (Next.final.inj h).1 (by decide)

/-- When the first byte of the data is taken for a procedure byte, then either it is for the first
half of the status, or a byte that is no NULL byte is lost. -/
theorem t0Loop_loses {ins : Byte} {fuel : Nat} {t t' : T0 (List Byte)} (hrx : t.rxbuf = [])
    (hrun : t0Loop listFifo ins fuel t = some (AM_SUCCESS, t')) :
    t'.rxbuf.length = 2 ∨ heavy t'.rxbuf < weight t := by
  induction fuel generalizing t with
  | zero => exact absurd hrun (Option.some_ne_none _).symm
  | succ fuel ih =>
    rw [t0Loop, t0Step] at hrun
    cases hr : t.card.read 1 with
    | none =>
      rw [hr] at hrun
      exact absurd (Prod.mk.inj (Option.some.inj hrun)).1 (by decide)
    | some r =>
      obtain ⟨bs, c⟩ := r
      obtain ⟨byte, rfl⟩ := List.length_eq_one_iff.mp (Card.script_of_read hr).1
      have hw := t0Byte_weighs ins { t with card := c } byte
      have hc := weight_read hr
      have ht : weight { t with card := c } + heavy [byte] = weight t := by
        show heavy t.rxbuf + heavyEvents c.script + _ = heavy t.rxbuf + _
        omega
      rw [hr] at hrun
      simp only [List.getD_cons_zero] at hrun
      by_cases h60 : byte = 0x60
      · rw [t0Byte, if_pos h60] at hrun
        rcases ih (t := { t with card := c }) hrx hrun with h | h
        · exact .inl h
        · exact .inr (by omega)
      have hone : heavy [byte] = 1 := List.countP_cons_of_pos (by simpa using h60)
      cases hn : t0Byte listFifo ins { t with card := c } byte with
      | again t1 =>
        rw [hn] at hrun hw
        have := t0Loop_weighs hrun
        have : weight t1 ≤ weight { t with card := c } := hw
        exact .inr (by omega)
      | final ret t1 =>
        rw [hn] at hrun
        obtain ⟨rfl, rfl⟩ := Prod.mk.inj (Option.some.inj hrun)
        exact .inl (length_of_final (t := { t with card := c }) hrx hn)

/-! ## Which exchanges go right -/

namespace Exchange

variable {x : Exchange} {txbuf rxbuf : Ringbuffer}

theorem payload_in (hdata : x.data ≠ []) :
    x.payload = List.replicate x.data.length .takes := if_neg hdata

theorem payload_out (hdata : x.data = []) : x.payload = x.answer.map .sends := if_pos hdata

/-- What the caller gets, from what the loop over lists ends with. -/
def answerOf (r : Int × T0 (List Byte)) : Answer :=
  ⟨r.1, r.2.rxbuf.drop (r.2.rxbuf.length - r.2.rxbuf.length % SMC_BUF_SIZE), r.2.card⟩

/-- The loop that an exchange is. -/
def loop (x : Exchange) : Option (Int × T0 (List Byte)) :=
  t0Loop listFifo x.ins (x.replies.length + 1) ⟨⟨x.replies, x.header⟩, x.data, [],
    if x.data = [] then x.p3 else 0⟩

theorem transfer_eq_loop (h : x.Valid) :
    amSmcTransferT0 true txbuf rxbuf x.card (x.header ++ x.data) = x.loop.map answerOf := by
  have hdata : x.data.length < 256 := by
    rcases h.data_length with hd | hd
    · rw [hd]
      decide
    · rw [hd]
      exact x.p3.isLt
  exact amSmcTransferT0_eq txbuf rxbuf x.replies rfl hdata

theorem drop_of_lt {l : List Byte} (h : l.length < SMC_BUF_SIZE) :
    l.drop (l.length - l.length % SMC_BUF_SIZE) = l := by
  rw [Nat.mod_eq_of_lt h, Nat.sub_self, List.drop_zero]

theorem length_answer_le (h : x.Valid) : x.answer.length ≤ 256 := by
  have hlen := h.answer_length
  have := x.p3.isLt
  split at hlen
  · omega
  · split at hlen <;> omega

theorem served_in (h : x.Valid) (hdata : x.data ≠ []) (hone : .one ∉ x.procs) :
    ∃ r, x.loop = some r ∧ x.Served (answerOf r) := by
  have hps : Proc.Orderly x.procs x.data.length := by
    have := h.orderly
    rwa [payload_in hdata, List.length_replicate] at this
  have hpassed : x.passed = Proc.asked x.procs x.data.length := by
    rw [passed, payload_in hdata, List.length_replicate]
  have hanswer : x.answer = [] := by
    have := h.answer_length
    rw [if_pos hdata] at this
    exact List.eq_nil_of_length_eq_zero this
  have hreplies : x.replies = Proc.script x.ins x.procs (List.replicate x.data.length .takes) ++
      [.sends x.sw1, .sends x.sw2] := by
    rw [replies, payload_in hdata]
  have hfuel : (Proc.script x.ins x.procs (List.replicate x.data.length .takes)).length <
      x.replies.length + 1 := by
    rw [hreplies, List.length_append]
    omega
  obtain ⟨l', hl'⟩ := t0Loop_in h.ins_status h.sw1_status x.sw2 hps hone x.header []
    (if x.data = [] then x.p3 else 0) hfuel
  rw [← hreplies] at hl'
  exact ⟨_, hl', rfl, by rw [hanswer, List.take_nil]; rfl, by rw [hpassed]; rfl⟩

theorem served_out (h : x.Valid) (hdata : x.data = [])
    (hall : x.p3 = 0 → (x.procs.filter (· ≠ .null)).head? ≠ some .all) :
    ∃ r, x.loop = some r ∧ x.Served (answerOf r) := by
  have hpayload := payload_out hdata
  have hps : Proc.Orderly x.procs x.answer.length := by
    have := h.orderly
    rwa [hpayload, List.length_map] at this
  have hpassed : x.passed = Proc.asked x.procs x.answer.length := by
    rw [passed, hpayload, List.length_map]
  have hlen : x.answer.length = if x.p3 = 0 then 256 else x.p3.toNat := by
    have := h.answer_length
    rwa [if_neg (not_not.mpr hdata)] at this
  have hrxlen : (if x.data = [] then x.p3 else 0) = BitVec.ofNat 8 x.answer.length := by
    rw [if_pos hdata, hlen]
    split
    · assumption
    · exact BitVec.eq_of_toNat_eq (by rw [BitVec.toNat_ofNat, Nat.mod_eq_of_lt x.p3.isLt])
  have hall' : x.answer.length = 256 → (x.procs.filter (· ≠ .null)).head? ≠ some .all := by
    intro he
    refine hall ?_
    by_contra hp
    rw [hlen, if_neg hp] at he
    exact absurd he (Nat.ne_of_lt x.p3.isLt)
  have hreplies : x.replies = Proc.script x.ins x.procs (x.answer.map .sends) ++
      [.sends x.sw1, .sends x.sw2] := by
    rw [replies, hpayload]
  have hfuel : (Proc.script x.ins x.procs (x.answer.map .sends)).length < x.replies.length + 1 := by
    rw [hreplies, List.length_append]
    omega
  obtain ⟨n, hn⟩ := t0Loop_out h.ins_status h.sw1_status x.sw2 hps x.header []
    (fun _ => hrxlen) (length_answer_le h) hall' hfuel
  rw [← hreplies] at hn
  have hloop : x.loop = t0Loop listFifo x.ins (x.replies.length + 1)
      ⟨⟨x.replies, x.header⟩, [], [], if x.data = [] then x.p3 else 0⟩ := by
    rw [loop, hdata]
  refine ⟨_, hloop.trans hn, rfl, ?_, by rw [hdata, List.take_nil, List.append_nil]; rfl⟩
  rw [hpassed]
  refine drop_of_lt ?_
  have := length_answer_le h
  have hsize : SMC_BUF_SIZE = 1024 := rfl
  rw [List.nil_append, List.length_append, List.length_take, List.length_cons, List.length_cons,
    List.length_nil]
  omega

theorem not_served_in (h : x.Valid) (hdata : x.data ≠ []) (hone : .one ∈ x.procs)
    {r : Int × T0 (List Byte)} (hr : x.loop = some r) : ¬ x.Served (answerOf r) := by
  have hps : Proc.Orderly x.procs x.data.length := by
    have := h.orderly
    rwa [payload_in hdata, List.length_replicate] at this
  rw [loop, replies, payload_in hdata] at hr
  exact fun hs => t0Loop_one_fails h.ins_status hps hone _ _ _ _ hr hs.ret_eq

/-- Without data behind them the procedure bytes are NULL bytes, which weigh nothing. -/
theorem heavyEvents_nulls (ins : Byte) {ps : List Proc} (h : ∀ p ∈ ps, p = .null) :
    heavyEvents (Proc.script ins ps []) = 0 := by
  induction ps with
  | nil => rfl
  | cons p ps ih =>
    have hp : p = .null := h p List.mem_cons_self
    subst hp
    have hrest := ih fun q hq => h q (List.mem_cons_of_mem _ hq)
    show heavyEvents (.sends 0x60 :: Proc.script ins ps []) = 0
    rw [show heavyEvents (.sends 0x60 :: Proc.script ins ps []) = _ from
      List.countP_cons_of_neg (by decide)]
    exact hrest

/-- The loop up to the first procedure byte that calls for data. -/
theorem t0Loop_nulls {ins : Byte} {ps : List Proc} {p : Proc} {es tail : List Event}
    (hhead : (ps.filter (· ≠ .null)).head? = some p) (hps : Proc.Orderly ps es.length)
    (got l kept : List Byte) (rxlen : Byte) {fuel : Nat} {r : Int × T0 (List Byte)}
    (hrun : t0Loop listFifo ins fuel ⟨⟨Proc.script ins ps es ++ tail, got⟩, l, kept, rxlen⟩ =
      some r) :
    ∃ ps' fuel', Proc.Orderly (p :: ps') es.length ∧
      t0Loop listFifo ins fuel' ⟨⟨Proc.script ins (p :: ps') es ++ tail, got⟩, l, kept, rxlen⟩ =
        some r := by
  induction ps generalizing fuel with
  | nil => exact absurd hhead (Option.some_ne_none _).symm
  | cons q ps ih =>
    by_cases hq : q = .null
    · subst hq
      cases fuel with
      | zero => exact absurd hrun (Option.some_ne_none _).symm
      | succ fuel => exact ih hhead hps.2 hrun
    · rw [List.filter_cons_of_pos (by simpa using hq), List.head?_cons] at hhead
      obtain rfl := Option.some.inj hhead
      exact ⟨ps, fuel, hps, hrun⟩

/-- Of 256 bytes that are called for as a whole, none is read: `rxlen` is zero. -/
theorem not_served_out (h : x.Valid) (hdata : x.data = []) (hp3 : x.p3 = 0)
    (hall : (x.procs.filter (· ≠ .null)).head? = some .all) {r : Int × T0 (List Byte)}
    (hr : x.loop = some r) : ¬ x.Served (answerOf r) := by
  intro hs
  obtain ⟨ret, t⟩ := r
  obtain rfl : ret = AM_SUCCESS := hs.ret_eq
  have hpayload := payload_out hdata
  have hlen : x.answer.length = 256 := by
    have := h.answer_length
    rwa [if_neg (not_not.mpr hdata), if_pos hp3] at this
  rw [loop, replies, hdata, if_pos rfl, hp3] at hr
  obtain ⟨ps, fuel, hps, hrun⟩ := t0Loop_nulls hall h.orderly x.header [] [] 0 hr
  have hrest : Proc.Orderly ps 0 := by
    have := hps.2
    rwa [Proc.passes, Nat.sub_self] at this
  have hrecv : t.rxbuf.drop (t.rxbuf.length - t.rxbuf.length % SMC_BUF_SIZE) =
      x.answer ++ [x.sw1, x.sw2] := by
    have hall' : x.answer.length ≤ x.passed := by
      rw [passed, hpayload, List.length_map]
      exact Proc.le_asked hall _
    have hs' := hs.recv_eq
    rw [List.take_of_length_le hall'] at hs'
    exact hs'
  have hscript : Proc.script x.ins (.all :: ps) x.payload =
      .sends x.ins :: (x.answer.map .sends ++ Proc.script x.ins ps []) := by
    rw [Proc.script, Proc.passes, List.take_length, List.drop_length, hpayload]
    rfl
  cases fuel with
  | zero => exact absurd hrun (Option.some_ne_none _).symm
  | succ fuel =>
    rw [hscript, List.cons_append] at hrun
    have hrun' := (t0Loop_all_out h.ins_status (d := []) rfl fuel).symm.trans hrun
    have hweight : heavyEvents ((x.answer.map .sends ++ Proc.script x.ins ps []) ++
        [.sends x.sw1, .sends x.sw2]) = heavy (x.answer ++ [x.sw1, x.sw2]) := by
      rw [heavyEvents_append, heavyEvents_append, heavyEvents_nulls _ (Proc.orderly_zero hrest),
        heavyEvents_sends, heavy_append]
      exact congrArg _ (heavyEvents_sends [x.sw1, x.sw2])
    rcases t0Loop_loses rfl hrun' with hshort | hlost
    · have := congrArg List.length hrecv
      rw [List.length_drop, List.length_append, hlen] at this
      omega
    · have hle : heavy (x.answer ++ [x.sw1, x.sw2]) ≤ heavy t.rxbuf := by
        rw [← hrecv]
        exact (List.drop_sublist _ _).countP_le
      have hw : heavy t.rxbuf < 0 + heavy (x.answer ++ [x.sw1, x.sw2]) := by
        rw [← hweight]
        exact hlost
      omega

/-- **Which exchanges are served**: those with data for the card that it does not call for singly,
and those with data from it, unless these are 256 bytes and called for as a whole. -/
theorem exchange_served_iff (x : Exchange) (h : x.Valid) (txbuf rxbuf : Ringbuffer) :
    (∃ a, amSmcTransferT0 true txbuf rxbuf x.card (x.header ++ x.data) = some a ∧ x.Served a) ↔
      x.Plain := by
  have hloop : (∃ a, amSmcTransferT0 true txbuf rxbuf x.card (x.header ++ x.data) = some a ∧
      x.Served a) ↔ ∃ r, x.loop = some r ∧ x.Served (answerOf r) := by
    rw [transfer_eq_loop h]
    constructor
    · rintro ⟨a, ha, hs⟩
      obtain ⟨r, hr, rfl⟩ := Option.map_eq_some_iff.mp ha
      exact ⟨r, hr, hs⟩
    · rintro ⟨r, hr, hs⟩
      exact ⟨_, Option.map_eq_some_iff.mpr ⟨r, hr, rfl⟩, hs⟩
  rw [hloop, Plain]
  by_cases hdata : x.data ≠ []
  · rw [if_pos hdata]
    constructor
    · rintro ⟨r, hr, hs⟩ hone
      exact not_served_in h hdata hone hr hs
    · exact served_in h hdata
  · rw [if_neg hdata]
    have hdata' := not_not.mp hdata
    constructor
    · rintro ⟨r, hr, hs⟩ hp3 hall
      exact not_served_out h hdata' hp3 hall hr hs
    · exact served_out h hdata'

/-- Two bytes from the card, the first singly. -/
def twoBytes : Exchange where
  cla := 0
  ins := 0xB0
  p1 := 0
  p2 := 0
  p3 := 2
  data := []
  answer := [0xAA, 0x60]
  procs := [.null, .one, .null, .all, .null]
  sw1 := 0x90
  sw2 := 0

theorem exchange_served_twoBytes :
    ∃ a, amSmcTransferT0 true ⟨fun _ => 0, 0, 0⟩ ⟨fun _ => 0, 0, 0⟩ twoBytes.card
      (twoBytes.header ++ twoBytes.data) = some a ∧ twoBytes.Served a :=
  (exchange_served_iff twoBytes
    ⟨by decide, by decide, by decide, by decide, by decide, by decide⟩ _ _).2 (by decide)

/-- A byte for the card, which calls for it singly. -/
def oneByte : Exchange where
  cla := 0
  ins := 0xD0
  p1 := 0
  p2 := 0
  p3 := 1
  data := [0x12]
  answer := []
  procs := [.one]
  sw1 := 0x90
  sw2 := 0

theorem exchange_not_served_oneByte :
    oneByte.Valid ∧
      ¬ ∃ a, amSmcTransferT0 true ⟨fun _ => 0, 0, 0⟩ ⟨fun _ => 0, 0, 0⟩ oneByte.card
        (oneByte.header ++ oneByte.data) = some a ∧ oneByte.Served a := by
  have hvalid : oneByte.Valid :=
    ⟨by decide, by decide, by decide, by decide, by decide, by decide⟩
  refine ⟨hvalid, ?_⟩
  rintro ⟨a, ha, hs⟩
  rw [transfer_eq_loop hvalid] at ha
  obtain ⟨r, hr, rfl⟩ := Option.map_eq_some_iff.mp ha
  exact not_served_in hvalid (by decide) (by decide) hr hs

end Exchange

end VendorAmlogic.Smc
