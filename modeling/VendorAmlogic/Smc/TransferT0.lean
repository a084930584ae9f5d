import VendorAmlogic.Smc.Transfer

/-!
# The T=0 exchange

`AM_SMC_TransferT0` of `am_smc/am_smc.c` with the two ring buffers it keeps. The
card is a script of the bytes it sends and the places where it waits for one. A
read or write of the host takes the whole of what it asks for out of the script;
where the card does not go along, the poll behind it times out.

The loop is written once over the operations it uses of a buffer. `Ringbuffer`
has those of the source, and a list of bytes has the same without a bound.
-/

namespace VendorAmlogic.Smc

open VendorAmlogic.Lib

/-! ## The card -/

inductive Event where
  | sends (b : Byte)
  | takes
  deriving DecidableEq, Repr

/-- What the card still does, and the bytes it has got. -/
structure Card where
  script : List Event
  got : List Byte
  deriving DecidableEq, Repr

namespace Card

/-- A complete `smc_read` of `n` bytes. -/
def read : Card → Nat → Option (List Byte × Card)
  | c, 0 => some ([], c)
  | ⟨.sends b :: es, got⟩, n + 1 => (read ⟨es, got⟩ n).map fun r => (b :: r.1, r.2)
  | _, _ + 1 => none

/-- A complete `smc_write`. -/
def write : Card → List Byte → Option Card
  | c, [] => some c
  | ⟨.takes :: es, got⟩, b :: bs => write ⟨es, got ++ [b]⟩ bs
  | _, _ :: _ => none

theorem read_sends (bs : List Byte) (es : List Event) (got : List Byte) :
    Card.read ⟨bs.map .sends ++ es, got⟩ bs.length = some (bs, ⟨es, got⟩) := by
  induction bs with
  | nil => rfl
  | cons b bs ih =>
    show (Card.read ⟨bs.map .sends ++ es, got⟩ bs.length).map _ = _
    rw [ih]
    rfl

theorem write_takes (bs : List Byte) (es : List Event) (got : List Byte) :
    Card.write ⟨List.replicate bs.length .takes ++ es, got⟩ bs = some ⟨es, got ++ bs⟩ := by
  induction bs generalizing got with
  | nil => simp [Card.write]
  | cons b bs ih =>
    show Card.write ⟨List.replicate bs.length .takes ++ es, got ++ [b]⟩ bs = _
    rw [ih, List.append_assoc]
    rfl

/-- A read takes what it returns off the script. -/
theorem script_of_read {c c' : Card} {n : Nat} {bs : List Byte} (h : c.read n = some (bs, c')) :
    bs.length = n ∧ c.script = bs.map .sends ++ c'.script ∧ c'.got = c.got := by
  induction n generalizing c bs with
  | zero =>
    obtain ⟨rfl, rfl⟩ := Prod.mk.inj (Option.some.inj (by simpa [Card.read] using h))
    exact ⟨rfl, rfl, rfl⟩
  | succ n ih =>
    obtain ⟨_ | ⟨_ | _, es⟩, got⟩ := c
    · exact absurd h (Option.some_ne_none _).symm
    · obtain ⟨⟨bs', c''⟩, hr, he⟩ := Option.map_eq_some_iff.mp h
      obtain ⟨rfl, rfl⟩ := Prod.mk.inj he
      obtain ⟨hlen, hs, hg⟩ := ih hr
      refine ⟨by rw [List.length_cons, hlen], ?_, hg⟩
      simp only [List.map_cons, List.cons_append, ← hs]
    · exact absurd h (Option.some_ne_none _).symm

end Card

/-! ## Buffers -/

/-- What the exchange does with a buffer. -/
structure Fifo (τ : Type) where
  write : τ → List Byte → τ
  avail : τ → Nat
  read : τ → Nat → List Byte × τ

/-- Without a bound. -/
def listFifo : Fifo (List Byte) where
  write := (· ++ ·)
  avail := List.length
  read l n := (l.take n, l.drop n)

def SMC_BUF_SIZE : Nat := 1024

structure Ringbuffer where
  data : Mem
  pread : Nat
  pwrite : Nat

namespace Ringbuffer

/-- Where a piece of `n` bytes from `pos` on ends. -/
def advance (pos n : Nat) : Nat :=
  let split := if pos + n > SMC_BUF_SIZE then SMC_BUF_SIZE - pos else 0
  if split > 0 then (0 + (n - split)) % SMC_BUF_SIZE else (pos + n) % SMC_BUF_SIZE

def reset (rb : Ringbuffer) : Ringbuffer := { rb with pread := 0, pwrite := 0 }

def write (rb : Ringbuffer) (d : List Byte) : Ringbuffer :=
  { rb with
    data := ringPut SMC_BUF_SIZE rb.data rb.pwrite d
    pwrite := advance rb.pwrite d.length }

def avail (rb : Ringbuffer) : Nat :=
  if rb.pwrite < rb.pread then rb.pwrite + SMC_BUF_SIZE - rb.pread else rb.pwrite - rb.pread

def read (rb : Ringbuffer) (n : Nat) : List Byte × Ringbuffer :=
  (ringGet SMC_BUF_SIZE rb.data rb.pread n, { rb with pread := advance rb.pread n })

end Ringbuffer

def ringFifo : Fifo Ringbuffer := ⟨Ringbuffer.write, Ringbuffer.avail, Ringbuffer.read⟩

/-! ## The loop -/

/-- The variables of `AM_SMC_TransferT0` that its loop changes. -/
structure T0 (τ : Type) where
  card : Card
  txbuf : τ
  rxbuf : τ
  rxlen : Byte

inductive Next (τ : Type) where
  | again (t : T0 τ)
  | final (ret : Int) (t : T0 τ)

section Loop

variable {τ : Type} (q : Fifo τ) (ins : Byte)

/-- The answer of the host to a procedure byte. -/
def t0Byte (t : T0 τ) (byte : Byte) : Next τ :=
  if byte = 0x60 then .again t
  else if byte &&& 0xF0 = 0x60 ∨ byte &&& 0xF0 = 0x90 then
    let t := { t with rxbuf := q.write t.rxbuf [byte] }
    match t.card.read 1 with
    | none => .final AM_SMC_ERR_TIMEOUT t
    | some (dst, c) => .final AM_SUCCESS { t with card := c, rxbuf := q.write t.rxbuf dst }
  else if byte = ins ∨ byte = ins ^^^ 0x01 then
    let cnt := q.avail t.txbuf
    if cnt > 0 then
      let r := q.read t.txbuf cnt
      match t.card.write r.1 with
      | none => .final AM_SMC_ERR_TIMEOUT { t with txbuf := r.2 }
      | some c => .again { t with card := c, txbuf := r.2 }
    else
      match t.card.read t.rxlen.toNat with
      | none => .final AM_SMC_ERR_TIMEOUT t
      | some (buf, c) => .again { t with card := c, rxbuf := q.write t.rxbuf buf }
  else if byte = ins ^^^ 0xFF ∨ byte = ins ^^^ 0xFE then
    match t.card.read 1 with
    | none => .final AM_SMC_ERR_TIMEOUT t
    | some (buf, c) =>
      .again { t with card := c, rxbuf := q.write t.rxbuf buf, rxlen := t.rxlen - 1 }
  else .final AM_SMC_ERR_IO t

/-- One round of the loop. -/
def t0Step (t : T0 τ) : Next τ :=
  match t.card.read 1 with
  | none => .final AM_SMC_ERR_TIMEOUT t
  | some (bs, c) => t0Byte q ins { t with card := c } (bs.getD 0 0)

/-- The rounds, as many as there is fuel for. -/
def t0Loop : Nat → T0 τ → Option (Int × T0 τ)
  | 0, _ => none
  | fuel + 1, t =>
    match t0Step q ins t with
    | .final ret t' => some (ret, t')
    | .again t' => t0Loop fuel t'

end Loop

/-- What the caller gets: the result, the `*rlen` bytes at `recv`, and the card as it is then. -/
structure Answer where
  ret : Int
  recv : List Byte
  card : Card

/-- `AM_SMC_TransferT0` with the bytes at `send`, in the buffers as they were left. Every round
takes a byte of the script, so that the fuel lasts. -/
def amSmcTransferT0 (openned : Bool) (txbuf rxbuf : Ringbuffer) (card : Card) (send : List Byte) :
    Option Answer :=
  let ins := send.getD 1 0
  let rxlen := if send.length = 5 then send.getD 4 0 else 0
  let txbuf := txbuf.reset.write send
  let rxbuf := rxbuf.reset
  if ¬ openned then some ⟨AM_SMC_ERR_NOT_OPENNED, [], card⟩
  else
    let r := txbuf.read 5
    match card.write r.1 with
    | none => some ⟨AM_SMC_ERR_TIMEOUT, (rxbuf.read rxbuf.avail).1, card⟩
    | some c =>
      (t0Loop ringFifo ins (c.script.length + 1) ⟨c, r.2, rxbuf, rxlen⟩).map fun (ret, t) =>
        ⟨ret, (t.rxbuf.read t.rxbuf.avail).1, t.card⟩

/-! ## The rings keep lists -/

/-- What is still to be read of a ring that is read as a whole. -/
structure Pending (rb : Ringbuffer) (l : List Byte) : Prop where
  pwrite_eq : rb.pwrite = rb.pread + l.length
  lt : rb.pwrite < SMC_BUF_SIZE
  data_eq : rb.data.read rb.pread l.length = l

/-- A ring that is only written to: it has what came since its last turn. -/
structure Kept (rb : Ringbuffer) (l : List Byte) : Prop where
  pread_eq : rb.pread = 0
  pwrite_eq : rb.pwrite = l.length % SMC_BUF_SIZE
  data_eq : rb.data.read 0 rb.pwrite = l.drop (l.length - rb.pwrite)

theorem advance_of_lt {pos n : Nat} (h : pos + n < SMC_BUF_SIZE) :
    Ringbuffer.advance pos n = pos + n := by
  unfold Ringbuffer.advance
  simp only
  rw [if_neg (show ¬ pos + n > SMC_BUF_SIZE by omega), if_neg (Nat.lt_irrefl 0), Nat.mod_eq_of_lt h]

theorem advance_eq_mod {pos n : Nat} (hp : pos < SMC_BUF_SIZE) :
    Ringbuffer.advance pos n = (pos + n) % SMC_BUF_SIZE := by
  unfold Ringbuffer.advance
  simp only
  by_cases hw : pos + n > SMC_BUF_SIZE
  · have hn' : 0 + (n - (SMC_BUF_SIZE - pos)) = pos + n - SMC_BUF_SIZE := by omega
    rw [if_pos hw, if_pos (by omega), Nat.mod_eq_sub_mod (show SMC_BUF_SIZE ≤ pos + n by omega),
      hn']
  · rw [if_neg hw, if_neg (Nat.lt_irrefl 0)]

theorem ringPut_of_le {N pos : Nat} {m : Mem} {d : List Byte} (h : pos + d.length ≤ N) :
    ringPut N m pos d = m.copy pos d :=
  if_pos (by omega)

theorem ringGet_of_le {N pos n : Nat} {m : Mem} (h : pos + n ≤ N) :
    ringGet N m pos n = m.read pos n :=
  if_pos (by omega)

theorem Pending.init (rb : Ringbuffer) (send : List Byte) (h : send.length < SMC_BUF_SIZE) :
    Pending (rb.reset.write send) send where
  pwrite_eq := by
    show Ringbuffer.advance 0 send.length = 0 + send.length
    exact advance_of_lt (by omega)
  lt := by
    show Ringbuffer.advance 0 send.length < _
    rw [advance_of_lt (by omega)]
    omega
  data_eq := by
    show Mem.read (ringPut SMC_BUF_SIZE rb.data 0 send) 0 send.length = send
    rw [ringPut_of_le (by omega), Mem.read_copy]

theorem Pending.avail {rb : Ringbuffer} {l : List Byte} (h : Pending rb l) :
    rb.avail = l.length := by
  have hw := h.pwrite_eq
  unfold Ringbuffer.avail
  rw [if_neg (by omega)]
  omega

theorem Pending.read {rb : Ringbuffer} {l : List Byte} (h : Pending rb l) {n : Nat}
    (hn : n ≤ l.length) : (rb.read n).1 = l.take n ∧ Pending (rb.read n).2 (l.drop n) := by
  have hw := h.pwrite_eq
  have hlt := h.lt
  have hadv : Ringbuffer.advance rb.pread n = rb.pread + n := advance_of_lt (by omega)
  refine ⟨?_, ?_, hlt, ?_⟩
  · show ringGet SMC_BUF_SIZE rb.data rb.pread n = l.take n
    rw [ringGet_of_le (by omega), ← Mem.take_read rb.data rb.pread hn, h.data_eq]
  · show rb.pwrite = Ringbuffer.advance rb.pread n + (l.drop n).length
    rw [hadv, List.length_drop]
    omega
  · show rb.data.read (Ringbuffer.advance rb.pread n) (l.drop n).length = l.drop n
    rw [hadv, List.length_drop, ← Mem.drop_read, h.data_eq]

theorem Kept.init (rb : Ringbuffer) : Kept rb.reset [] := ⟨rfl, rfl, rfl⟩

theorem Kept.read {rb : Ringbuffer} {l : List Byte} (h : Kept rb l) :
    (rb.read rb.avail).1 = l.drop (l.length - l.length % SMC_BUF_SIZE) := by
  have hav : rb.avail = rb.pwrite := by
    unfold Ringbuffer.avail
    rw [h.pread_eq, if_neg (Nat.not_lt_zero _), Nat.sub_zero]
  have hlt : rb.pwrite < SMC_BUF_SIZE := by
    rw [h.pwrite_eq]
    exact Nat.mod_lt _ (by decide)
  show ringGet SMC_BUF_SIZE rb.data rb.pread rb.avail = _
  rw [hav, h.pread_eq, ringGet_of_le (by omega), h.data_eq, h.pwrite_eq]

theorem Kept.write {rb : Ringbuffer} {l d : List Byte} (h : Kept rb l)
    (hd : d.length < SMC_BUF_SIZE) : Kept (rb.write d) (l ++ d) := by
  have hw := h.pwrite_eq
  have hlt : rb.pwrite < SMC_BUF_SIZE := by
    rw [hw]
    exact Nat.mod_lt _ (by decide)
  have hle : rb.pwrite ≤ l.length := by
    rw [hw]
    exact Nat.mod_le _ _
  have hadv : Ringbuffer.advance rb.pwrite d.length = (l ++ d).length % SMC_BUF_SIZE := by
    rw [advance_eq_mod hlt, hw, Nat.mod_add_mod, List.length_append]
  refine ⟨h.pread_eq, hadv, ?_⟩
  show Mem.read (ringPut SMC_BUF_SIZE rb.data rb.pwrite d) 0
      (Ringbuffer.advance rb.pwrite d.length) =
    (l ++ d).drop ((l ++ d).length - Ringbuffer.advance rb.pwrite d.length)
  rw [List.length_append]
  by_cases hfit : rb.pwrite + d.length < SMC_BUF_SIZE
  · -- behind what the ring has
    rw [advance_of_lt hfit, ringPut_of_le (by omega), Mem.read_add, Nat.zero_add, Mem.read_copy_at,
      show l.length + d.length - (rb.pwrite + d.length) = l.length - rb.pwrite by omega,
      List.drop_append_of_le_length (by omega), ← h.data_eq]
    congr 1
    exact Mem.read_congr fun i hi => Mem.copy_of_lt (by omega)
  · -- from the start of the ring on, over what it had
    have hend : Ringbuffer.advance rb.pwrite d.length = rb.pwrite + d.length - SMC_BUF_SIZE := by
      rw [advance_eq_mod hlt, Nat.mod_eq_sub_mod (by omega), Nat.mod_eq_of_lt (by omega)]
    have hrest : (d.drop (SMC_BUF_SIZE - rb.pwrite)).length =
        rb.pwrite + d.length - SMC_BUF_SIZE := by
      rw [List.length_drop]
      omega
    rw [hend, show l.length + d.length - (rb.pwrite + d.length - SMC_BUF_SIZE) =
      l.length + (SMC_BUF_SIZE - rb.pwrite) by omega, ← List.drop_drop, List.drop_left]
    by_cases hfull : rb.pwrite + d.length = SMC_BUF_SIZE
    · rw [hfull, Nat.sub_self, Mem.read_zero]
      exact (List.drop_eq_nil_of_le (by omega)).symm
    · have hput : ringPut SMC_BUF_SIZE rb.data rb.pwrite d =
          (rb.data.copy rb.pwrite (d.take (SMC_BUF_SIZE - rb.pwrite))).copy 0
            (d.drop (SMC_BUF_SIZE - rb.pwrite)) := if_neg (by omega)
      rw [hput, ← hrest, Mem.read_copy]

/-! ## The loop over lists -/

/-- The states of the loop over rings and over lists. -/
structure Sim (t : T0 Ringbuffer) (s : T0 (List Byte)) : Prop where
  card : t.card = s.card
  txbuf : Pending t.txbuf s.txbuf
  rxbuf : Kept t.rxbuf s.rxbuf
  rxlen : t.rxlen = s.rxlen

def Next.Rel {τ υ : Type} (R : T0 τ → T0 υ → Prop) : Next τ → Next υ → Prop
  | .again t, .again s => R t s
  | .final ret t, .final ret' s => ret = ret' ∧ R t s
  | _, _ => False

theorem length_of_read_lt {c c' : Card} {n : Byte} {bs : List Byte}
    (h : c.read n.toNat = some (bs, c')) : bs.length < SMC_BUF_SIZE := by
  rw [(Card.script_of_read h).1]
  exact Nat.lt_trans n.isLt (by decide)

theorem length_of_read_one {c c' : Card} {bs : List Byte} (h : c.read 1 = some (bs, c')) :
    bs.length < SMC_BUF_SIZE := by
  rw [(Card.script_of_read h).1]
  decide

theorem t0Byte_sim (ins : Byte) {t : T0 Ringbuffer} {s : T0 (List Byte)} (h : Sim t s)
    (byte : Byte) : (t0Byte ringFifo ins t byte).Rel Sim (t0Byte listFifo ins s byte) := by
  obtain ⟨card, tx, rx, rxlen⟩ := t
  obtain ⟨_, l, kept, _⟩ := s
  obtain ⟨rfl, htx, hrx, rfl⟩ := h
  unfold t0Byte
  by_cases h60 : byte = 0x60
  · rw [if_pos h60, if_pos h60]
    exact ⟨rfl, htx, hrx, rfl⟩
  rw [if_neg h60, if_neg h60]
  by_cases hsw : byte &&& 0xF0 = 0x60 ∨ byte &&& 0xF0 = 0x90
  · have hrx1 : Kept (rx.write [byte]) (kept ++ [byte]) :=
      hrx.write (show 1 < SMC_BUF_SIZE by decide)
    rw [if_pos hsw, if_pos hsw]
    simp only
    split
    · exact ⟨rfl, rfl, htx, hrx1, rfl⟩
    next dst c hr => exact ⟨rfl, rfl, htx, hrx1.write (length_of_read_one hr), rfl⟩
  rw [if_neg hsw, if_neg hsw]
  by_cases hins : byte = ins ∨ byte = ins ^^^ 0x01
  · rw [if_pos hins, if_pos hins]
    have hav : ringFifo.avail tx = listFifo.avail l := htx.avail
    simp only [hav]
    by_cases hcnt : listFifo.avail l > 0
    · obtain ⟨hbuf, htx'⟩ := htx.read (Nat.le_refl l.length)
      have hbuf' : (ringFifo.read tx (listFifo.avail l)).1 =
          (listFifo.read l (listFifo.avail l)).1 := hbuf
      rw [if_pos hcnt, if_pos hcnt]
      simp only [hbuf']
      split
      · exact ⟨rfl, rfl, htx', hrx, rfl⟩
      · exact ⟨rfl, htx', hrx, rfl⟩
    · rw [if_neg hcnt, if_neg hcnt]
      split
      · exact ⟨rfl, rfl, htx, hrx, rfl⟩
      next buf c hr => exact ⟨rfl, htx, hrx.write (length_of_read_lt hr), rfl⟩
  rw [if_neg hins, if_neg hins]
  by_cases hone : byte = ins ^^^ 0xFF ∨ byte = ins ^^^ 0xFE
  · rw [if_pos hone, if_pos hone]
    simp only
    split
    · exact ⟨rfl, rfl, htx, hrx, rfl⟩
    next buf c hr => exact ⟨rfl, htx, hrx.write (length_of_read_one hr), rfl⟩
  · rw [if_neg hone, if_neg hone]
    exact ⟨rfl, rfl, htx, hrx, rfl⟩

theorem t0Step_sim (ins : Byte) {t : T0 Ringbuffer} {s : T0 (List Byte)} (h : Sim t s) :
    (t0Step ringFifo ins t).Rel Sim (t0Step listFifo ins s) := by
  unfold t0Step
  rw [h.card]
  split
  · exact ⟨rfl, h⟩
  next bs c hr =>
    exact t0Byte_sim ins (t := { t with card := c }) (s := { s with card := c })
      ⟨rfl, h.txbuf, h.rxbuf, h.rxlen⟩ _

theorem t0Loop_sim (ins : Byte) (fuel : Nat) {t : T0 Ringbuffer} {s : T0 (List Byte)}
    (h : Sim t s) :
    Option.Rel (fun r r' => r.1 = r'.1 ∧ Sim r.2 r'.2) (t0Loop ringFifo ins fuel t)
      (t0Loop listFifo ins fuel s) := by
  induction fuel generalizing t s with
  | zero => exact .none
  | succ fuel ih =>
    have hstep := t0Step_sim ins h
    simp only [t0Loop]
    cases ht : t0Step ringFifo ins t <;> cases hs : t0Step listFifo ins s <;> rw [ht, hs] at hstep
    · exact ih hstep
    · exact hstep.elim
    · exact hstep.elim
    · exact .some hstep

/-- **The exchange over lists**: the rings are but lists, of which what came since the last turn of
the ring is returned. -/
theorem amSmcTransferT0_eq (txbuf rxbuf : Ringbuffer) (es : List Event) {header data : List Byte}
    (hheader : header.length = 5) (hdata : data.length < 256) :
    amSmcTransferT0 true txbuf rxbuf ⟨List.replicate 5 .takes ++ es, []⟩ (header ++ data) =
      (t0Loop listFifo (header.getD 1 0) (es.length + 1) ⟨⟨es, header⟩, data, [],
        if data = [] then header.getD 4 0 else 0⟩).map fun (ret, s) =>
          ⟨ret, s.rxbuf.drop (s.rxbuf.length - s.rxbuf.length % SMC_BUF_SIZE), s.card⟩ := by
  have hsize : (1024 : Nat) = SMC_BUF_SIZE := rfl
  have hget : ∀ i, i < 5 → (header ++ data).getD i 0 = header.getD i 0 := fun i hi => by
    rw [List.getD_eq_getElem?_getD, List.getElem?_append_left (by omega),
      ← List.getD_eq_getElem?_getD]
  have hlen : (header ++ data).length = 5 + data.length := by rw [List.length_append, hheader]
  have hrxlen : (if (header ++ data).length = 5 then (header ++ data).getD 4 0 else 0) =
      if data = [] then header.getD 4 0 else 0 := by
    rw [hlen, hget 4 (by omega)]
    cases data <;> simp
  obtain ⟨hbuf, htx⟩ := (Pending.init txbuf (header ++ data) (by omega)).read (n := 5) (by omega)
  rw [List.take_left' hheader] at hbuf
  rw [List.drop_left' hheader] at htx
  have hwrite : Card.write ⟨List.replicate 5 .takes ++ es, []⟩ header = some ⟨es, header⟩ := by
    rw [← hheader, Card.write_takes, List.nil_append]
  unfold amSmcTransferT0
  simp only [hrxlen, hget 1 (by omega), not_true, if_false, hbuf, hwrite]
  have hsim := t0Loop_sim (header.getD 1 0) (es.length + 1)
    (t := ⟨⟨es, header⟩, ((txbuf.reset.write (header ++ data)).read 5).2, rxbuf.reset,
      if data = [] then header.getD 4 0 else 0⟩)
    (s := ⟨⟨es, header⟩, data, [], if data = [] then header.getD 4 0 else 0⟩)
    ⟨rfl, htx, Kept.init rxbuf, rfl⟩
  revert hsim
  generalize t0Loop ringFifo _ _ _ = r
  generalize t0Loop listFifo _ _ _ = r'
  intro hsim
  cases hsim with
  | none => rfl
  | some h =>
    simp only [Option.map_some, h.1, h.2.rxbuf.read, h.2.card]

/-! ## Transfers in pieces -/

/-- A read in two parts. -/
theorem Card.read_add (c : Card) (n m : Nat) :
    c.read (n + m) = (c.read n).bind fun r => (r.2.read m).map fun r' => (r.1 ++ r'.1, r'.2) := by
  induction n generalizing c with
  | zero =>
    rw [Nat.zero_add, Card.read]
    exact Option.map_id'.symm
  | succ n ih =>
    rw [Nat.add_right_comm]
    obtain ⟨_ | ⟨b | _, es⟩, got⟩ := c
    · rfl
    · rw [Card.read, Card.read, ih]
      cases Card.read ⟨es, got⟩ n with
      | none => rfl
      | some r =>
        show Option.map _ (Option.map _ (r.2.read m)) = Option.map _ (r.2.read m)
        rw [Option.map_map]
        rfl
    · rfl

/-- `aml_read` from a card, of which call `k` gets `pieces k` bytes at most. -/
def cardRead (pieces : Nat → Nat) (k : Nat) (s : Mem × Card) (data len : Nat) :
    Driven (Mem × Card) :=
  match s.2.read (min (pieces k) len) with
  | none => ⟨AM_SMC_ERR_TIMEOUT, len, s⟩
  | some (bs, c) => ⟨AM_SUCCESS, bs.length, (s.1.copy data bs, c)⟩

/-- The card has sent `n` bytes, which are in the buffer. -/
def CardSent (buf : Mem) (c : Card) (n : Nat) (s : Mem × Card) : Prop :=
  ∃ bs, c.read n = some (bs, s.2) ∧ s.1 = buf.copy 0 bs

theorem cardRead_follows {c : Card} {len : Nat} (h : (c.read len).isSome) (pieces : Nat → Nat)
    (buf : Mem) :
    Follows (cardRead pieces) (fun k => some (pieces k)) (CardSent buf c) len where
  failed _ _ _ _ _ _ hk := absurd hk (Option.some_ne_none _)
  moved k s n left m hn hs hk := by
    obtain rfl := Option.some.inj hk
    obtain ⟨bs, hread, hbuf⟩ := hs
    obtain ⟨⟨more, c'⟩, hmore⟩ : ∃ r, s.2.read (min (pieces k) left) = some r := by
      rw [← hn, Card.read_add, hread, ← Nat.add_sub_of_le (Nat.min_le_right (pieces k) left),
        Option.bind_some, Option.isSome_map, Card.read_add] at h
      exact Option.isSome_iff_exists.mp (Option.isSome_of_isSome_bind h)
    have hlen := (Card.script_of_read hmore).1
    unfold cardRead
    rw [hmore]
    refine ⟨rfl, hlen, bs ++ more, ?_, ?_⟩
    · rw [Card.read_add, hread, Option.bind_some, hmore]
      rfl
    · show s.1.copy n more = buf.copy 0 (bs ++ more)
      rw [Mem.copy_append, hbuf, Nat.zero_add, (Card.script_of_read hread).1]

/-- **A complete read**: `smc_read` from a card that sends, whatever the pieces, ends with what the
card sends at once or for want of time. -/
theorem transfer_cardRead {c c' : Card} {bs : List Byte} {len : Nat} (h : c.read len = some (bs, c'))
    {pieces : Nat → Nat} {clock : Nat → Int} {timeout : Int} {fuel : Nat} {buf : Mem}
    {r : Result (Mem × Card)}
    (hrun : transfer (cardRead pieces) clock timeout len fuel (buf, c) = some r)
    (hret : r.ret = AM_SUCCESS) : r.actLen = len ∧ r.dev = (buf.copy 0 bs, c') := by
  have hf := cardRead_follows (by rw [h]; rfl) pieces buf
  obtain ⟨l, hl, rfl⟩ := Option.map_eq_some_iff.mp hrun
  have h0 : CardSent buf c 0 (buf, c) := ⟨[], rfl, (Mem.copy_nil buf 0).symm⟩
  rcases smcLoop_spec hf (Going.init h0) hl with ⟨-, hc⟩ | ⟨-, hb⟩
  · have hcnt : l.cnt = len := hc.ret_iff.mp hret
    obtain ⟨bs', hread, hbuf⟩ := hc.inv
    rw [hcnt, h] at hread
    obtain ⟨rfl, hcard⟩ := Prod.mk.inj (Option.some.inj hread)
    exact ⟨hcnt, Prod.ext hbuf hcard.symm⟩
  · exact absurd hret hb.ret_ne

end VendorAmlogic.Smc
