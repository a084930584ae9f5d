import VendorAmlogic.Lib.Mem

/-!
# Smart-card transfers

`smc_read` and `smc_write` of `am_smc/am_smc.c` over `aml_read` and `aml_write`
of `am_smc/aml/aml.c`. A driver call is one `poll` with the `read` or `write`
behind it; the calls of a transfer are numbered, and so are the clock readings,
the first of which is taken before the first call.
-/

namespace VendorAmlogic.Smc

open VendorAmlogic.Lib

def AM_SUCCESS : Int := 0
def AM_MOD_SMC : Int := 8
def AM_SMC_ERROR_BASE : Int := AM_MOD_SMC * 2 ^ 24
def AM_SMC_ERR_NOT_OPENNED : Int := AM_SMC_ERROR_BASE + 3
def AM_SMC_ERR_TIMEOUT : Int := AM_SMC_ERROR_BASE + 6
def AM_SMC_ERR_IO : Int := AM_SMC_ERROR_BASE + 8

/-! ## The driver -/

/-- What the system calls of one driver call give: `io` is `none` for a negative result. -/
structure Attempt (β : Type) where
  poll : Int
  io : Option β

/-- A driver call: its result, what it leaves in `*len`, and the device after it. -/
structure Driven (σ : Type) where
  ret : Int
  len : Nat
  dev : σ

/-- What the bytes have gone into, and all that came. -/
structure Reader where
  buf : Mem
  moved : List Byte

/-- Both driver calls: `poll`, and then the system call with what it moves. -/
def amlCall {β σ : Type} (a : Attempt β) (s : σ) (len : Nat) (move : β → Nat × σ) : Driven σ :=
  if a.poll ≠ 1 then ⟨AM_SMC_ERR_TIMEOUT, len, s⟩
  else match a.io with
    | none => ⟨ AM_SMC_ERR_IO, len, s⟩
    | some x => ⟨AM_SUCCESS, (move x).1, (move x).2⟩

/-- `aml_read` into `data` of the buffer. -/
def amlRead (a : Attempt (List Byte)) (s : Reader) (data len : Nat) : Driven Reader :=
  amlCall a s len fun bs =>
    let got := bs.take len
    (got.length, { buf := s.buf.copy data got, moved := s.moved ++ got })

/-- `aml_write` from `data` of the buffer; the device has taken `moved`. -/
def amlWrite (a : Attempt Nat) (buf : Mem) (moved : List Byte) (data len : Nat) :
    Driven (List Byte) :=
  amlCall a moved len fun n => (min n len, moved ++ buf.read data (min n len))

/-! ## The loop -/

/-- The variables of a transfer. -/
structure Loop (σ : Type) where
  ptr : Nat
  left : Nat
  cnt : Nat
  ret : Int
  calls : Nat
  dev : σ

section Loop

variable {σ : Type} (call : Nat → σ → Nat → Nat → Driven σ) (clock : Nat → Int) (timeout : Int)

/-- `end`. -/
def deadline : Int := if 0 ≤ timeout then i32 (clock 0 + timeout) else 0

/-- The time is up after the call. -/
def Expired (k : Nat) : Prop := 0 ≤ timeout ∧ 0 ≤ i32 (clock (k + 1) - deadline clock timeout)

instance (k : Nat) : Decidable (Expired clock timeout k) :=
  inferInstanceAs (Decidable (_ ∧ _))

/-- The loop, for at most as many calls as there is fuel. The time that is left, which `poll` is
given, shows in what the call does only. -/
def smcLoop : Nat → Loop σ → Option (Loop σ)
  | 0, _ => none
  | fuel + 1, l =>
    if l.left = 0 then some l
    else
      let tlen := l.left
      let r := call l.calls l.dev l.ptr tlen
      if r.ret < 0 then some { l with ret := r.ret, dev := r.dev }
      else
        let l' : Loop σ :=
          { ptr := l.ptr + r.len, left := l.left - r.len, cnt := l.cnt + r.len, ret := r.ret,
            calls := l.calls + 1, dev := r.dev }
        if Expired clock timeout l.calls ∧ l'.left ≠ 0 then
          some { l' with ret := AM_SMC_ERR_TIMEOUT }
        else smcLoop fuel l'

/-- What a transfer returns, with `*act_len`. -/
structure Result (σ : Type) where
  ret : Int
  actLen : Nat
  dev : σ

def transfer (len fuel : Nat) (dev : σ) : Option (Result σ) :=
  (smcLoop call clock timeout fuel ⟨0, len, 0, AM_SUCCESS, 0, dev⟩).map fun l =>
    ⟨l.ret, l.cnt, l.dev⟩

end Loop

def smcRead (attempts : Nat → Attempt (List Byte)) (clock : Nat → Int) (buf : Mem) (len : Nat)
    (timeout : Int) (fuel : Nat) : Option (Result Reader) :=
  transfer (fun k => amlRead (attempts k)) clock timeout len fuel ⟨buf, []⟩

def smcWrite (attempts : Nat → Attempt Nat) (clock : Nat → Int) (buf : Mem) (len : Nat)
    (timeout : Int) (fuel : Nat) : Option (Result (List Byte)) :=
  transfer (fun k => amlWrite (attempts k) buf) clock timeout len fuel []

/-! ## What the calls move -/

/-- How many bytes a driver call moves when there is room for them, or that it fails. -/
def Attempt.size {β : Type} (count : β → Nat) (a : Attempt β) : Option Nat :=
  if a.poll ≠ 1 then none else a.io.map count

/-- The bytes of the first calls. -/
def total (sizes : Nat → Option Nat) : Nat → Nat
  | 0 => 0
  | k + 1 => total sizes k + (sizes k).getD 0

/-- The transfer gets as far as call `k`, provided no call fails: it is neither complete nor out of
time before. -/
def Comes (sizes : Nat → Option Nat) (clock : Nat → Int) (timeout : Int) (len k : Nat) : Prop :=
  total sizes k < len ∧ ∀ i, i < k → ¬ Expired clock timeout i

/-- No call that the transfer comes to fails. -/
def Sound (sizes : Nat → Option Nat) (clock : Nat → Int) (timeout : Int) (len : Nat) : Prop :=
  ∀ k, Comes sizes clock timeout len k → sizes k ≠ none

theorem total_mono (sizes : Nat → Option Nat) {i k : Nat} (h : i ≤ k) :
    total sizes i ≤ total sizes k := by
  induction h with
  | refl => exact Nat.le_refl _
  | step _ ih => exact Nat.le_trans ih (Nat.le_add_right _ _)

section Spec

variable {σ : Type} {call : Nat → σ → Nat → Nat → Driven σ} {clock : Nat → Int} {timeout : Int}
variable {sizes : Nat → Option Nat} {Inv : Nat → σ → Prop} {len : Nat}

/-- The calls of a transfer of `len` bytes move what `sizes` says, and `Inv n` is what the device is
with `n` bytes moved. -/
structure Follows (call : Nat → σ → Nat → Nat → Driven σ) (sizes : Nat → Option Nat)
    (Inv : Nat → σ → Prop) (len : Nat) : Prop where
  failed : ∀ k s n left, n + left = len → Inv n s → sizes k = none →
    0 < (call k s n left).ret ∧ (call k s n left).len = left ∧ Inv n (call k s n left).dev
  moved : ∀ k s n left m, n + left = len → Inv n s → sizes k = some m →
    (call k s n left).ret = AM_SUCCESS ∧ (call k s n left).len = min m left ∧
      Inv (n + min m left) (call k s n left).dev

/-- Before a call: none has failed, and none was the last for the time. -/
structure Going (sizes : Nat → Option Nat) (clock : Nat → Int) (timeout : Int)
    (Inv : Nat → σ → Prop) (len : Nat) (l : Loop σ) : Prop where
  cnt_eq : l.cnt = l.ptr
  ptr_eq : l.ptr = min len (total sizes l.calls)
  left_eq : l.left = len - l.ptr
  ret_eq : l.ret = AM_SUCCESS
  inv : Inv l.ptr l.dev
  moved : ∀ i, i < l.calls → sizes i ≠ none
  time : ∀ i, i < l.calls → Expired clock timeout i → l.left = 0

/-- A transfer that met no failure. -/
structure Complete (Inv : Nat → σ → Prop) (len : Nat) (l : Loop σ) : Prop where
  inv : Inv l.cnt l.dev
  le : l.cnt ≤ len
  ret_iff : l.ret = AM_SUCCESS ↔ l.cnt = len

/-- The last call failed, and counts as a whole transfer. -/
structure Failed (Inv : Nat → σ → Prop) (len : Nat) (l : Loop σ) : Prop where
  cnt_eq : l.cnt = len
  ret_ne : l.ret ≠ AM_SUCCESS
  inv : ∃ n, n < len ∧ Inv n l.dev

/-- With nothing left the loop ends. -/
theorem smcLoop_of_left {fuel : Nat} {l l' : Loop σ} (hleft : l.left = 0)
    (hrun : smcLoop call clock timeout fuel l = some l') : l' = l := by
  cases fuel with
  | zero => exact absurd hrun (Option.some_ne_none _).symm
  | succ fuel =>
    rw [smcLoop, if_pos hleft] at hrun
    exact (Option.some.inj hrun).symm

theorem Going.init {s : σ} (h : Inv 0 s) :
    Going sizes clock timeout Inv len ⟨0, len, 0, AM_SUCCESS, 0, s⟩ where
  cnt_eq := rfl
  ptr_eq := (Nat.min_zero len).symm
  left_eq := rfl
  ret_eq := rfl
  inv := h
  moved _ hi := absurd hi (Nat.not_lt_zero _)
  time _ hi := absurd hi (Nat.not_lt_zero _)

theorem Going.sum_eq {l : Loop σ} (h : Going sizes clock timeout Inv len l) :
    l.ptr + l.left = len := by
  have hp := h.ptr_eq
  have hl := h.left_eq
  omega

/-- A transfer that is not complete yet comes to its next call. -/
theorem Going.comes {l : Loop σ} (h : Going sizes clock timeout Inv len l) (hleft : l.left ≠ 0) :
    Comes sizes clock timeout len l.calls := by
  have hp := h.ptr_eq
  have hl := h.left_eq
  exact ⟨by omega, fun i hi he => hleft (h.time i hi he)⟩

/-- Without a failure so far, none later counts once the transfer is complete or out of time. -/
theorem Going.sound {l : Loop σ} (h : Going sizes clock timeout Inv len l)
    (hend : l.left = 0 ∨ ∃ i, i < l.calls ∧ Expired clock timeout i) :
    Sound sizes clock timeout len := by
  intro k hk
  have hlt : k < l.calls := by
    by_contra hge
    rcases hend with hleft | ⟨i, hi, he⟩
    · have hp := h.ptr_eq
      have hl := h.left_eq
      have := total_mono sizes (Nat.le_of_not_lt hge)
      have := hk.1
      omega
    · exact hk.2 i (by omega) he
  exact h.moved k hlt

theorem Going.step (hf : Follows call sizes Inv len) {l : Loop σ} {m : Nat}
    (h : Going sizes clock timeout Inv len l) (hleft : l.left ≠ 0) (hm : sizes l.calls = some m) :
    let r := call l.calls l.dev l.ptr l.left
    let l' : Loop σ := ⟨l.ptr + r.len, l.left - r.len, l.cnt + r.len, r.ret, l.calls + 1, r.dev⟩
    ¬ (Expired clock timeout l.calls ∧ l'.left ≠ 0) → Going sizes clock timeout Inv len l' := by
  intro r l' hgo
  obtain ⟨hret, hlen, hinv⟩ := hf.moved l.calls l.dev l.ptr l.left m h.sum_eq h.inv hm
  have hp := h.ptr_eq
  have hl := h.left_eq
  have hlen' : r.len = min m l.left := hlen
  have htotal : total sizes (l.calls + 1) = total sizes l.calls + m := by rw [total, hm]; rfl
  refine ⟨?_, ?_, ?_, hret, ?_, ?_, ?_⟩
  · show l.cnt + r.len = l.ptr + r.len
    rw [h.cnt_eq]
  · show l.ptr + r.len = min len (total sizes (l.calls + 1))
    omega
  · show l.left - r.len = len - (l.ptr + r.len)
    omega
  · show Inv (l.ptr + r.len) r.dev
    rw [hlen']
    exact hinv
  · intro i hi
    rcases Nat.lt_succ_iff_lt_or_eq.mp hi with hi | rfl
    · exact h.moved i hi
    · rw [hm]
      exact Option.some_ne_none m
  · intro i hi he
    rcases Nat.lt_succ_iff_lt_or_eq.mp hi with hi | rfl
    · exact absurd (h.time i hi he) hleft
    · exact not_not.mp fun hne => hgo ⟨he, hne⟩

/-- **A transfer either meets no failure and counts right, or meets one and counts it as the whole
rest.** -/
theorem smcLoop_spec (hf : Follows call sizes Inv len) {fuel : Nat} {l l' : Loop σ}
    (h : Going sizes clock timeout Inv len l) (hrun : smcLoop call clock timeout fuel l = some l') :
    (Sound sizes clock timeout len ∧ Complete Inv len l') ∨
      (¬ Sound sizes clock timeout len ∧ Failed Inv len l') := by
  induction fuel generalizing l with
  | zero => exact absurd hrun (Option.some_ne_none _).symm
  | succ fuel ih =>
    have hp := h.ptr_eq
    have hl := h.left_eq
    have hc := h.cnt_eq
    rw [smcLoop] at hrun
    by_cases hleft : l.left = 0
    · rw [if_pos hleft] at hrun
      obtain rfl := Option.some.inj hrun
      refine .inl ⟨h.sound (.inl hleft), ?_, by omega, ?_⟩
      · rw [hc]
        exact h.inv
      · exact iff_of_true h.ret_eq (by omega)
    rw [if_neg hleft] at hrun
    cases hm : sizes l.calls with
    | none =>
      obtain ⟨hret, hlen, hinv⟩ := hf.failed l.calls l.dev l.ptr l.left h.sum_eq h.inv hm
      simp only at hrun
      -- nothing is left, so that the loop ends with the result of the call
      rw [if_neg (by omega), if_neg (by rw [hlen]; simp)] at hrun
      obtain rfl := smcLoop_of_left (by show l.left - _ = 0; omega) hrun
      refine .inr ⟨fun hs => hs _ (h.comes hleft) hm, ?_, ?_, ⟨l.ptr, by omega, hinv⟩⟩
      · show l.cnt + _ = len
        omega
      · show (call l.calls l.dev l.ptr l.left).ret ≠ 0
        omega
    | some m =>
      obtain ⟨hret, hlen, hinv⟩ := hf.moved l.calls l.dev l.ptr l.left m h.sum_eq h.inv hm
      simp only at hrun
      rw [if_neg (by rw [hret]; decide)] at hrun
      by_cases hstop : Expired clock timeout l.calls ∧
          l.left - (call l.calls l.dev l.ptr l.left).len ≠ 0
      · rw [if_pos hstop] at hrun
        obtain rfl := Option.some.inj hrun
        left
        constructor
        · intro k hk
          rcases Nat.lt_trichotomy k l.calls with hlt | rfl | hgt
          · exact h.moved k hlt
          · rw [hm]
            exact Option.some_ne_none m
          · exact absurd hstop.1 (hk.2 _ hgt)
        · have hne := hstop.2
          refine ⟨?_, ?_, ?_⟩
          · show Inv (l.cnt + _) _
            rw [hc, hlen]
            exact hinv
          · show l.cnt + _ ≤ len
            omega
          · show AM_SMC_ERR_TIMEOUT = AM_SUCCESS ↔ l.cnt + _ = len
            exact iff_of_false (by decide) (by omega)
      · rw [if_neg hstop] at hrun
        exact ih (h.step hf hleft hm hstop) hrun

/-- The counting of a transfer, of which `count` bytes have gone over the line. -/
structure Accounts (count : σ → Nat) (len : Nat) (r : Result σ) : Prop where
  actLen_eq : r.actLen = count r.dev
  ret_iff : r.ret = AM_SUCCESS ↔ count r.dev = len

/-- What is invariant holds behind every transfer, and it counts right just when it meets no
failure. -/
theorem transfer_spec (hf : Follows call sizes Inv len) {count : σ → Nat}
    (hcount : ∀ n s, Inv n s → count s = n) {s : σ} (h0 : Inv 0 s) {fuel : Nat} {r : Result σ}
    (hrun : transfer call clock timeout len fuel s = some r) :
    Inv (count r.dev) r.dev ∧ (Accounts count len r ↔ Sound sizes clock timeout len) := by
  obtain ⟨l, hl, rfl⟩ := Option.map_eq_some_iff.mp hrun
  rcases smcLoop_spec hf (Going.init h0) hl with ⟨hs, hc⟩ | ⟨hs, hb⟩
  · have hn : count l.dev = l.cnt := hcount _ _ hc.inv
    refine ⟨?_, iff_of_true ⟨hn.symm, ?_⟩ hs⟩
    · show Inv (count l.dev) l.dev
      rw [hn]
      exact hc.inv
    · show l.ret = AM_SUCCESS ↔ count l.dev = len
      rw [hn]
      exact hc.ret_iff
  · obtain ⟨n, hlt, hinv⟩ := hb.inv
    have hn : count l.dev = n := hcount _ _ hinv
    refine ⟨?_, iff_of_false (fun ha => ?_) hs⟩
    · show Inv (count l.dev) l.dev
      rw [hn]
      exact hinv
    · have : l.cnt = count l.dev := ha.actLen_eq
      have := hb.cnt_eq
      omega

/-- Calls that move something make a transfer return. -/
theorem smcLoop_returns (hf : Follows call sizes Inv len)
    (hpos : ∀ k m, sizes k = some m → 0 < m) {l : Loop σ}
    (h : Going sizes clock timeout Inv len l) {fuel : Nat} (hfuel : l.left < fuel) :
    ∃ l', smcLoop call clock timeout fuel l = some l' := by
  induction fuel generalizing l with
  | zero => exact absurd hfuel (Nat.not_lt_zero _)
  | succ fuel ih =>
    rw [smcLoop]
    by_cases hleft : l.left = 0
    · exact ⟨l, if_pos hleft⟩
    rw [if_neg hleft]
    cases hm : sizes l.calls with
    | none =>
      obtain ⟨hret, hlen, hdev⟩ := hf.failed l.calls l.dev l.ptr l.left h.sum_eq h.inv hm
      simp only
      rw [if_neg (by omega), if_neg (by rw [hlen]; simp)]
      cases fuel with
      | zero => omega
      | succ fuel => exact ⟨_, by rw [smcLoop, if_pos (by show l.left - _ = 0; omega)]⟩
    | some m =>
      obtain ⟨hret, hlen, hdev⟩ := hf.moved l.calls l.dev l.ptr l.left m h.sum_eq h.inv hm
      have hm0 := hpos _ _ hm
      simp only
      rw [if_neg (by rw [hret]; decide)]
      by_cases hstop : Expired clock timeout l.calls ∧
          l.left - (call l.calls l.dev l.ptr l.left).len ≠ 0
      · exact ⟨_, if_pos hstop⟩
      · rw [if_neg hstop]
        refine ih (h.step hf hleft hm hstop) ?_
        show l.left - _ < fuel
        omega

end Spec

/-! ## Reading and writing -/

section Ends

variable {buf : Mem} {len fuel : Nat} {timeout : Int} {clock : Nat → Int}

/-- The bytes that came are in the buffer from its start on, and the rest of it is as it was. -/
def Reader.Filled (buf : Mem) (n : Nat) (s : Reader) : Prop :=
  s.moved.length = n ∧ s.buf = buf.copy 0 s.moved

/-- The bytes that went are those from the start of the buffer on. -/
def Drained (buf : Mem) (n : Nat) (moved : List Byte) : Prop := moved = buf.read 0 n

def readSizes (attempts : Nat → Attempt (List Byte)) (k : Nat) : Option Nat :=
  (attempts k).size List.length

def writeSizes (attempts : Nat → Attempt Nat) (k : Nat) : Option Nat := (attempts k).size id

theorem amlCall_follows {β σ : Type} {attempts : Nat → Attempt β} {count : β → Nat}
    {Inv : Nat → σ → Prop} {len : Nat} {move : σ → Nat → Nat → β → Nat × σ}
    (hmove : ∀ n s left x, Inv n s →
      (move s n left x).1 = min (count x) left ∧ Inv (n + min (count x) left) (move s n left x).2) :
    Follows (fun k s data len => amlCall (attempts k) s len (move s data len))
      (fun k => (attempts k).size count) Inv len where
  failed k s n left _ h hk := by
    unfold Attempt.size at hk
    unfold amlCall
    by_cases hp : (attempts k).poll ≠ 1
    · rw [if_pos hp]
      exact ⟨by show 0 < AM_SMC_ERR_TIMEOUT; decide, rfl, h⟩
    · rw [if_neg hp] at hk ⊢
      rw [Option.map_eq_none_iff.mp hk]
      exact ⟨by show 0 < AM_SMC_ERR_IO; decide, rfl, h⟩
  moved k s n left m _ h hk := by
    unfold Attempt.size at hk
    unfold amlCall
    by_cases hp : (attempts k).poll ≠ 1
    · rw [if_pos hp] at hk
      exact absurd hk (Option.some_ne_none m).symm
    · rw [if_neg hp] at hk ⊢
      obtain ⟨x, hx, rfl⟩ := Option.map_eq_some_iff.mp hk
      rw [hx]
      exact ⟨rfl, hmove n s left x h⟩

theorem amlRead_follows (attempts : Nat → Attempt (List Byte)) :
    Follows (fun k => amlRead (attempts k)) (readSizes attempts) (Reader.Filled buf) len := by
  refine amlCall_follows fun n s left bs h => ?_
  obtain ⟨hn, hbuf⟩ := h
  have htake : (bs.take left).length = min bs.length left := by
    rw [List.length_take, Nat.min_comm]
  refine ⟨htake, ?_, ?_⟩
  · show (s.moved ++ bs.take left).length = n + min bs.length left
    rw [List.length_append, hn, htake]
  · show s.buf.copy n (bs.take left) = buf.copy 0 (s.moved ++ bs.take left)
    rw [Mem.copy_append, hbuf, Nat.zero_add, hn]

theorem amlWrite_follows (attempts : Nat → Attempt Nat) :
    Follows (fun k => amlWrite (attempts k) buf) (writeSizes attempts) (Drained buf) len := by
  refine amlCall_follows fun n s left m h => ⟨rfl, ?_⟩
  have hs : s = buf.read 0 n := h
  show s ++ buf.read n (min m left) = buf.read 0 (n + min m left)
  rw [Mem.read_add, hs, Nat.zero_add]

/-- A read that counts the bytes that came and has them from the start of the buffer on. -/
structure ReadRight (buf : Mem) (len : Nat) (r : Result Reader) : Prop where
  accounts : Accounts (fun s => s.moved.length) len r
  filled : r.dev.buf = buf.copy 0 r.dev.moved

/-- A write that counts the bytes that went, which are those from the start of the buffer on. -/
structure WriteRight (buf : Mem) (len : Nat) (r : Result (List Byte)) : Prop where
  accounts : Accounts List.length len r
  drained : r.dev = buf.read 0 r.dev.length

theorem readRight_iff_sound {attempts : Nat → Attempt (List Byte)} {r : Result Reader}
    (hrun : smcRead attempts clock buf len timeout fuel = some r) :
    ReadRight buf len r ↔ Sound (readSizes attempts) clock timeout len := by
  obtain ⟨hinv, hiff⟩ := transfer_spec (amlRead_follows attempts) (fun _ _ h => h.1)
    ⟨rfl, (Mem.copy_nil buf 0).symm⟩ hrun
  exact ⟨fun h => hiff.1 h.accounts, fun h => ⟨hiff.2 h, hinv.2⟩⟩

theorem writeRight_iff_sound {attempts : Nat → Attempt Nat} {r : Result (List Byte)}
    (hrun : smcWrite attempts clock buf len timeout fuel = some r) :
    WriteRight buf len r ↔ Sound (writeSizes attempts) clock timeout len := by
  have hcount : ∀ n s, Drained buf n s → s.length = n := by
    rintro n s rfl
    exact Mem.length_read buf 0 n
  obtain ⟨hinv, hiff⟩ := transfer_spec (amlWrite_follows attempts) hcount rfl hrun
  exact ⟨fun h => hiff.1 h.accounts, fun h => ⟨hiff.2 h, hinv⟩⟩

/-- **The accounting of both transfers** is right just when no driver call that the transfer comes
to fails. -/
theorem transfers_right_iff (len : Nat) (timeout : Int) (clock : Nat → Int) (buf : Mem)
    (fuel : Nat) :
    (∀ (attempts : Nat → Attempt (List Byte)) (r : Result Reader),
      smcRead attempts clock buf len timeout fuel = some r →
        (ReadRight buf len r ↔ Sound (readSizes attempts) clock timeout len)) ∧
    (∀ (attempts : Nat → Attempt Nat) (r : Result (List Byte)),
      smcWrite attempts clock buf len timeout fuel = some r →
        (WriteRight buf len r ↔ Sound (writeSizes attempts) clock timeout len)) :=
  ⟨fun _ _ => readRight_iff_sound, fun _ _ => writeRight_iff_sound⟩

/-- One byte in the first call, none in the second, and two more in the third. -/
def threeCalls (k : Nat) : Attempt (List Byte) :=
  ⟨1, some ([[1], [], [2, 3]].getD k [])⟩

theorem transfers_right_threeCalls :
    ReadRight (fun _ => 0) 3 ⟨AM_SUCCESS, 3,
        ⟨Mem.copy (Mem.copy (Mem.copy (fun _ => 0) 0 [1]) 1 []) 1 [2, 3], [1, 2, 3]⟩⟩ ∧
      WriteRight (fun _ => 7) 2 ⟨AM_SUCCESS, 2, [7, 7]⟩ :=
  ⟨((transfers_right_iff 3 100 (fun _ => 0) (fun _ => 0) 4).1 threeCalls _ rfl).2
      fun _ _ => Option.some_ne_none _,
    ((transfers_right_iff 2 (-1) (fun _ => 0) (fun _ => 7) 3).2 (fun _ => ⟨1, some 1⟩) _ rfl).2
      fun _ _ => Option.some_ne_none _⟩

/-- Without a byte on the line, the poll that times out counts as the byte. -/
theorem transfers_not_right :
    (∃ r, smcRead (fun _ => ⟨0, none⟩) (fun _ => 0) (fun _ => 0) 1 100 2 = some r ∧
      ¬ ReadRight (fun _ => 0) 1 r) ∧
    (∃ r, smcWrite (fun _ => ⟨0, none⟩) (fun _ => 0) (fun _ => 0) 1 100 2 = some r ∧
      ¬ WriteRight (fun _ => 0) 1 r) := by
  refine ⟨⟨⟨AM_SMC_ERR_TIMEOUT, 1, ⟨fun _ => 0, []⟩⟩, rfl, fun h => ?_⟩,
    ⟨⟨AM_SMC_ERR_TIMEOUT, 1, []⟩, rfl, fun h => ?_⟩⟩
  · exact absurd (show (1 : Nat) = 0 from h.accounts.actLen_eq) (by decide)
  · exact absurd (show (1 : Nat) = 0 from h.accounts.actLen_eq) (by decide)

end Ends

end VendorAmlogic.Smc
