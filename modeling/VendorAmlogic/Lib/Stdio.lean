import Mathlib.Tactic
import VendorAmlogic.Lib.Bytes

/-!
# Streams of bytes

A stream of the C library as a byte file with a position, integers in
little-endian order, and loops that read a file in blocks. `forChunks_inv` is
the rule for such a loop, with an invariant in the bytes read so far.
-/

namespace VendorAmlogic.Lib

/-! ## Little-endian integers -/

/-- The low `w` bytes of a number. -/
def leBytes : Nat → Nat → List Byte
  | 0, _ => []
  | w + 1, n => BitVec.ofNat 8 n :: leBytes w (n / 256)

def ofLe : List Byte → Nat
  | [] => 0
  | b :: bs => b.toNat + 256 * ofLe bs

@[simp] theorem length_leBytes (w n : Nat) : (leBytes w n).length = w := by
  induction w generalizing n with
  | zero => rfl
  | succ w ih => rw [leBytes, List.length_cons, ih]

theorem ofLe_leBytes {w n : Nat} (h : n < 256 ^ w) : ofLe (leBytes w n) = n := by
  induction w generalizing n with
  | zero =>
    rw [Nat.pow_zero, Nat.lt_one_iff] at h
    rw [h]
    rfl
  | succ w ih =>
    have hdiv : n / 256 < 256 ^ w := by
      rw [Nat.pow_succ] at h
      exact Nat.div_lt_of_lt_mul (by rwa [Nat.mul_comm])
    have hmod : (BitVec.ofNat 8 n).toNat = n % 256 := rfl
    rw [leBytes, ofLe, ih hdiv, hmod]
    exact Nat.mod_add_div n 256

theorem ofLe_lt (bs : List Byte) : ofLe bs < 256 ^ bs.length := by
  induction bs with
  | nil => exact Nat.one_pos
  | cons b bs ih =>
    have hb := b.isLt
    rw [ofLe, List.length_cons, Nat.pow_succ]
    omega

/-! ## Streams -/

structure Stream where
  data : List Byte
  pos : Nat
  deriving DecidableEq

namespace Stream

/-- `fread`: up to `n` bytes. -/
def fread (fp : Stream) (n : Nat) : List Byte × Stream :=
  let d := (fp.data.drop fp.pos).take n
  (d, { fp with pos := fp.pos + d.length })

/-- `fwrite`. -/
def fwrite (fp : Stream) (d : List Byte) : Stream :=
  ⟨overwrite fp.data fp.pos d, fp.pos + d.length⟩

/-- `fseek` from the start. -/
def fseek (fp : Stream) (o : Nat) : Stream := { fp with pos := o }

/-- The position is the end of the file. -/
def AtEnd (fp : Stream) : Prop := fp.pos = fp.data.length

variable {fp : Stream} {d e rest : List Byte}

theorem fread_eq {n : Nat} (h : fp.data.drop fp.pos = d ++ rest) (hn : n = d.length) :
    fp.fread n = (d, ⟨fp.data, fp.pos + n⟩) := by
  subst hn
  simp [fread, h]

theorem drop_fread {n : Nat} (h : fp.data.drop fp.pos = d ++ rest) (hn : n = d.length) :
    fp.data.drop (fp.pos + n) = rest := by
  subst hn
  rw [← List.drop_drop, h, List.drop_left]

theorem fwrite_atEnd (h : fp.AtEnd) : fp.fwrite d = ⟨fp.data ++ d, fp.pos + d.length⟩ := by
  rw [fwrite, h, overwrite_end]

theorem AtEnd.fwrite (h : fp.AtEnd) : (fp.fwrite d).AtEnd := by
  rw [fwrite_atEnd h, AtEnd, List.length_append, h]

theorem fwrite_append (h : fp.AtEnd) : (fp.fwrite d).fwrite e = fp.fwrite (d ++ e) := by
  rw [fwrite_atEnd h.fwrite, fwrite_atEnd h, fwrite_atEnd h, List.append_assoc, List.length_append,
    Nat.add_assoc]

theorem fwrite_nil (h : fp.AtEnd) : fp.fwrite [] = fp := by
  rw [fwrite_atEnd h, List.append_nil]
  rfl

theorem le_length_fwrite (fp : Stream) (d : List Byte) :
    fp.data.length ≤ (fp.fwrite d).data.length := by
  simp only [fwrite, overwrite, List.length_append, List.length_take, List.length_replicate,
    List.length_drop]
  omega

/-- The start of the file is written again. -/
theorem fwrite_start (h : fp.data = d ++ rest) (he : e.length = d.length) :
    ((fp.fseek 0).fwrite e).data = e ++ rest := by
  have hdrop : (d ++ rest).drop e.length = rest := by
    rw [he, List.drop_left]
  simp [fwrite, fseek, overwrite, h, hdrop]

end Stream

/-! ## Reading in blocks -/

section
variable {σ : Type}

/-- A loop that reads `n` bytes in blocks of up to `B`, with the bytes read so far and the
block as the arguments of its body. It ends early, with `false`, when the file does. -/
def forChunks (B n : Nat) (body : σ → Nat → List Byte → σ) :
    Nat → Stream → Nat → σ → σ × Stream × Bool
  | 0, fp, _, s => (s, fp, false)
  | fuel + 1, fp, t, s =>
    if t < n then
      let size := min (n - t) B
      let (buf, fp) := fp.fread size
      if buf.length = size then forChunks B n body fuel fp (t + size) (body s (t + size) buf)
      else (s, fp, false)
    else (s, fp, true)

variable {B n : Nat}

/-- The rule for a loop whose file is long enough; `d` is what there is to read. -/
theorem forChunks_inv (body : σ → Nat → List Byte → σ) {d rest : List Byte} (Inv : Nat → σ → Prop)
    (hB : 0 < B) (hn : d.length = n)
    (hstep : ∀ t s, t < n → Inv t s →
      Inv (t + min (n - t) B) (body s (t + min (n - t) B) ((d.drop t).take (min (n - t) B))))
    {fuel t : Nat} (fp : Stream) {s : σ} (hfuel : n < fuel + t) (ht : t ≤ n)
    (hfp : fp.data.drop fp.pos = d.drop t ++ rest) (h : Inv t s) :
    ∃ s', forChunks B n body fuel fp t s = (s', ⟨fp.data, fp.pos + (n - t)⟩, true) ∧ Inv n s' := by
  induction fuel generalizing t fp s with
  | zero => omega
  | succ fuel ih =>
    unfold forChunks
    split
    · rename_i hlt
      have hsplit : d.drop t = (d.drop t).take (min (n - t) B) ++ d.drop (t + min (n - t) B) := by
        rw [← List.drop_drop, List.take_append_drop]
      have hlen : min (n - t) B = ((d.drop t).take (min (n - t) B)).length := by
        rw [List.length_take, List.length_drop, hn]
        omega
      rw [hsplit, List.append_assoc] at hfp
      dsimp only
      rw [Stream.fread_eq hfp hlen]
      dsimp only
      rw [if_pos hlen.symm]
      obtain ⟨s', h1, h2⟩ := ih ⟨fp.data, fp.pos + min (n - t) B⟩ (by omega) (by omega)
        (Stream.drop_fread hfp hlen) (hstep t s hlt h)
      refine ⟨s', ?_, h2⟩
      rw [h1, show fp.pos + min (n - t) B + (n - (t + min (n - t) B)) = fp.pos + (n - t) by omega]
    · have : t = n := by omega
      subst this
      exact ⟨s, by simp, h⟩

/-- A loop whose file is too short does not come to its end. -/
theorem forChunks_short (body : σ → Nat → List Byte → σ) {fuel t : Nat} (fp : Stream) (s : σ)
    (h : (fp.data.drop fp.pos).length + t < n) : (forChunks B n body fuel fp t s).2.2 = false := by
  induction fuel generalizing t fp s with
  | zero => rfl
  | succ fuel ih =>
    unfold forChunks
    rw [if_pos (by omega)]
    dsimp only
    split
    · rename_i hfull
      refine ih _ _ ?_
      simp only [Stream.fread, List.length_take, List.length_drop] at hfull h ⊢
      omega
    · rfl

/-- Where the body treats two blocks as it does both at once, the blocks do not matter. -/
theorem forChunks_append {d rest : List Byte} {f : σ → List Byte → σ} (P : σ → Prop) (hB : 0 < B)
    (hn : d.length = n) (hnil : ∀ s, P s → f s [] = s)
    (happ : ∀ s a b, P s → f (f s a) b = f s (a ++ b))
    {fuel : Nat} (fp : Stream) (s : σ) (hfuel : n < fuel)
    (hfp : fp.data.drop fp.pos = d ++ rest) (h : P s) :
    forChunks B n (fun s _ buf => f s buf) fuel fp 0 s = (f s d, ⟨fp.data, fp.pos + n⟩, true) := by
  obtain ⟨s', h1, h2⟩ := forChunks_inv (fun s _ buf => f s buf)
    (fun t s' => s' = f s (d.take t)) hB hn (fun t s' _ hs => by
      rw [hs, happ _ _ _ h, List.take_add]) (t := 0) fp hfuel (Nat.zero_le n) hfp
    (by rw [List.take_zero, hnil s h])
  rw [h1, h2, ← hn, List.take_length]
  rfl

end

end VendorAmlogic.Lib
