import VendorAmlogic.Amsub.VobPacket

/-!
# The control area of a DVD subtitle packet

`get_spu_cmd` and `doDCSQC` of `libsub_vob/amsub_vob_dec.c`. A pointer into the
packet is the bytes from there on: it is behind the packet when there are none.
-/

namespace VendorAmlogic.Amsub.Vob

open VendorAmlogic.Lib

/-! ## Commands -/

inductive CommandID where
  | fstaDsp
  | staDsp
  | stpDsp
  | setColor
  | setContr
  | setDarea
  | setDspxa
  | chgColcon
  | cmdEnd
  deriving DecidableEq

namespace CommandID

def toByte : CommandID → Byte
  | fstaDsp => 0
  | staDsp => 1
  | stpDsp => 2
  | setColor => 3
  | setContr => 4
  | setDarea => 5
  | setDspxa => 6
  | chgColcon => 7
  | cmdEnd => 0xFF

def all : List CommandID :=
  [fstaDsp, staDsp, stpDsp, setColor, setContr, setDarea, setDspxa, chgColcon, cmdEnd]

/-- The `case` of a byte. -/
def ofByte (b : Byte) : Option CommandID := all.find? fun id => id.toByte = b

@[simp] theorem ofByte_toByte (id : CommandID) : ofByte id.toByte = some id := by
  cases id <;> rfl

theorem toByte_of_ofByte {b : Byte} {id : CommandID} (h : ofByte b = some id) : b = id.toByte := by
  unfold ofByte at h
  have hid := List.find?_some h
  exact (of_decide_eq_true hid).symm

end CommandID

/-- How many bytes behind a command are read, and how many more are skipped. -/
structure Layout where
  args : CommandID → Nat
  skip : CommandID → List Byte → Nat

/-! ## Model -/

/-- An `unsigned short`. -/
abbrev Half := Fin (2 ^ 16)

/-- From its two bytes. -/
def half (bs : List Byte) : Half := ⟨spuLength bs, length_lt bs⟩

def byteAt (bs : List Byte) (i : Nat) : Nat := (bs.getD i 0).toNat

/-- `amsub_para_s`, what the commands read and write of it. -/
structure Spu where
  pts : Nat
  mDelay : Nat
  cmdOffset : Half
  color : Half
  alpha : Half
  startX : Nat
  startY : Nat
  width : Nat
  height : Nat
  top : Half
  bottom : Half
  displayPending : Nat
  width_le : width ≤ vobSubWidth
  height_le : height ≤ vobSubHeight

namespace Spu

/-- `SET_DAREA`: the differences are unsigned, and cut. -/
def setArea (s : Spu) (a : List Byte) : Spu :=
  let startX := byteAt a 0 % 64 * 16 + byteAt a 1 / 16
  let endX := byteAt a 1 % 16 * 256 + byteAt a 2
  let startY := byteAt a 3 % 64 * 16 + byteAt a 4 / 16
  let endY := byteAt a 4 % 16 * 256 + byteAt a 5
  { s with
    startX := startX
    startY := startY
    width := min ((endX + 2 ^ 16 - startX + 1) % 2 ^ 16) vobSubWidth
    height := min ((endY + 2 ^ 16 - startY + 1) % 2 ^ 16) vobSubHeight
    width_le := Nat.min_le_right ..
    height_le := Nat.min_le_right .. }

/-- A `case` of `get_spu_cmd`, with the bytes it reads. -/
def command (s : Spu) (id : CommandID) (a : List Byte) : Spu :=
  match id with
  | .fstaDsp => { s with displayPending := 2 }
  | .staDsp => { s with displayPending := 1 }
  | .stpDsp => { s with displayPending := 0 }
  | .setColor => { s with color := half a }
  | .setContr => { s with alpha := half a }
  | .setDarea => s.setArea a
  | .setDspxa => { s with top := half a, bottom := half (a.drop 2) }
  | .chgColcon => s
  | .cmdEnd => s

/-- `m_delay`, from what `doDCSQC` returns. -/
def delayed (s : Spu) (d : Nat) : Spu :=
  { s with mDelay := if 0 < d then (d * 1024 + s.pts) % 2 ^ 32 else 0 }

end Spu

def spuLayout : Layout where
  args
    | .setColor => 2
    | .setContr => 2
    | .setDarea => 6
    | .setDspxa => 4
    | .chgColcon => 2
    | _ => 0
  skip id a := if id = .chgColcon then be a else 0

/-- In `doDCSQC` the high byte of the length is that of `CHG_COLCON` itself. -/
def delayLayout : Layout where
  args id := if id = .chgColcon then 1 else 0
  skip
    | .setColor, _ => 2
    | .setContr, _ => 2
    | .setDarea, _ => 6
    | .setDspxa, _ => 6
    | .chgColcon, a => 256 * CommandID.chgColcon.toByte.toNat + byteAt a 0
    | _, _ => 0

/-- The loop of `doDCSQC`, with `pdata` and `stoped` behind it. It has no bound. -/
def delayCommands (pend : List Byte) : List Byte → Bool → Option (List Byte × Bool)
  | [], _ => none
  | c :: p, stoped =>
    match CommandID.ofByte c with
    | none => some (pend, stoped)
    | some id =>
      if id = .cmdEnd then some (p, stoped)
      else
        let n := delayLayout.args id
        if p.length < n then none
        else delayCommands pend (p.drop (n + delayLayout.skip id (p.take n)))
          (stoped || id = .stpDsp)
termination_by p => p.length

theorem delayCommands_length {pend p q : List Byte} {s t : Bool}
    (h : delayCommands pend p s = some (q, t)) : q = pend ∨ q.length < p.length := by
  induction p, s using delayCommands.induct with
  | case1 s =>
    rw [delayCommands] at h
    cases h
  | case2 s c p hc =>
    rw [delayCommands, hc] at h
    cases h
    exact .inl rfl
  | case3 s c p hc =>
    rw [delayCommands, hc] at h
    cases h
    exact .inr (Nat.lt_succ_self _)
  | case4 s c p id hc hid n hn =>
    rw [delayCommands, hc] at h
    dsimp only at h
    rw [if_neg hid, if_pos hn] at h
    cases h
  | case5 s c p id hc hid n hn ih =>
    rw [delayCommands, hc] at h
    dsimp only at h
    rw [if_neg hid, if_neg hn] at h
    refine (ih h).imp_right fun hlt => ?_
    rw [List.length_drop] at hlt
    rw [List.length_cons]
    omega

/-- `doDCSQC`: the delay, or nothing if a byte behind the packet is read. -/
def doDCSQC (pend : List Byte) : List Byte → Option Nat
  | d1 :: d0 :: _ :: _ :: p =>
    match _h : delayCommands pend p false with
    | none => none
    | some (q, stoped) =>
      if _h' : pend.length < q.length ∧ stoped = false then
        (doDCSQC pend q).map (max (be [d1, d0]))
      else some (be [d1, d0])
  | _ => none
termination_by p => p.length
decreasing_by
  obtain rfl | hlt := delayCommands_length _h
  · exact absurd _h'.1 (Nat.lt_irrefl _)
  · simp only [List.length_cons]
    omega

/-- The loop of `get_spu_cmd`, with what it returns. -/
def commands (s : Spu) : List Byte → Option (Spu × Int)
  | [] => some (s, -1)
  | c :: p =>
    match CommandID.ofByte c with
    | none => some (s, -1)
    | some id =>
      if id = .cmdEnd then
        if 6 ≤ p.length then
          (doDCSQC (p.drop (p.length - 6)) p).map fun d => (s.delayed d, 0)
        else some (s, 0)
      else
        let n := spuLayout.args id
        if p.length < n then none
        else commands (s.command id (p.take n)) (p.drop (n + spuLayout.skip id (p.take n)))
termination_by p => p.length

/-- `get_spu_cmd` on a packet; nothing if a byte behind it is read. -/
def getSpuCmd (pkt : List Byte) (s : Spu) : Option (Spu × Int) :=
  if pkt.length ≤ s.cmdOffset then some (s, -1) else commands s (pkt.drop (s.cmdOffset + 4))

/-! ## What a control area is -/

/-- A command, but for `CMD_END`, with its bytes. -/
structure Command (l : Layout) where
  id : CommandID
  args : List Byte
  skipped : List Byte
  id_ne : id ≠ .cmdEnd
  length_args : args.length = l.args id
  length_skipped : skipped.length = l.skip id args

def Command.bytes {l : Layout} (c : Command l) : List Byte := c.id.toByte :: (c.args ++ c.skipped)

/-- The bytes behind a `CMD_END`: a delay, an address, commands, and an end to them. An end
that is not `CMD_END` is the end of the packet, and so is one in the last six bytes or after
`STP_DSP`. -/
inductive Delays : List Byte → Prop where
  | unknown (head : List Byte) (cs : List (Command delayLayout)) {c : Byte} {tail : List Byte}
      (hhead : head.length = 4) (hc : CommandID.ofByte c = none) :
      Delays (head ++ (cs.flatMap Command.bytes ++ c :: tail))
  | last (head : List Byte) (cs : List (Command delayLayout)) {tail : List Byte}
      (hhead : head.length = 4) (hend : tail.length ≤ 6 ∨ ∃ c ∈ cs, c.id = .stpDsp) :
      Delays (head ++ (cs.flatMap Command.bytes ++ CommandID.cmdEnd.toByte :: tail))
  | next (head : List Byte) (cs : List (Command delayLayout)) {tail : List Byte}
      (hhead : head.length = 4) (htail : 6 < tail.length) (hstop : ∀ c ∈ cs, c.id ≠ .stpDsp)
      (h : Delays tail) :
      Delays (head ++ (cs.flatMap Command.bytes ++ CommandID.cmdEnd.toByte :: tail))

/-- The bytes behind the commands of `get_spu_cmd`. -/
inductive Closing : List Byte → Prop where
  | out : Closing []
  | unknown {c : Byte} {tail : List Byte} (hc : CommandID.ofByte c = none) : Closing (c :: tail)
  | skip {id : CommandID} {tail : List Byte} (hid : id ≠ .cmdEnd)
      (hargs : spuLayout.args id ≤ tail.length)
      (hskip : tail.length <
        spuLayout.args id + spuLayout.skip id (tail.take (spuLayout.args id))) :
      Closing (id.toByte :: tail)
  | short {tail : List Byte} (h : tail.length < 6) : Closing (CommandID.cmdEnd.toByte :: tail)
  | delays {tail : List Byte} (h : Delays tail) : Closing (CommandID.cmdEnd.toByte :: tail)

/-- The packet has these commands. -/
def Control (pkt : List Byte) (s : Spu) (cs : List (Command spuLayout)) : Prop :=
  ∃ tail, pkt.drop (s.cmdOffset + 4) = cs.flatMap Command.bytes ++ tail ∧ Closing tail

/-- What they set. -/
def Spu.after (s : Spu) (cs : List (Command spuLayout)) : Spu :=
  cs.foldl (fun s c => s.command c.id c.args) s

/-! ## One command -/

section
variable {l : Layout} {p pend tail : List Byte} {c : Byte} {id : CommandID} {stoped : Bool}

/-- What is behind a command byte: too little, less than is skipped, or the command. -/
theorem command_cases (hc : CommandID.ofByte c = some id) (hid : id ≠ .cmdEnd) :
    p.length < l.args id ∨
    (l.args id ≤ p.length ∧ p.length < l.args id + l.skip id (p.take (l.args id))) ∨
    ∃ cmd : Command l, cmd.id = id ∧ cmd.args = p.take (l.args id) ∧
      c :: p = cmd.bytes ++ p.drop (l.args id + l.skip id (p.take (l.args id))) := by
  by_cases hargs : p.length < l.args id
  · exact .inl hargs
  by_cases hskip : p.length < l.args id + l.skip id (p.take (l.args id))
  · exact .inr (.inl ⟨not_lt.mp hargs, hskip⟩)
  refine .inr (.inr ⟨⟨id, p.take (l.args id),
    (p.drop (l.args id)).take (l.skip id (p.take (l.args id))), hid, ?_, ?_⟩, rfl, rfl, ?_⟩)
  · rw [List.length_take]
    omega
  · rw [List.length_take, List.length_drop]
    omega
  · rw [Command.bytes, List.cons_append, List.append_assoc, ← List.drop_drop,
      List.take_append_drop, List.take_append_drop, CommandID.toByte_of_ofByte hc]

theorem Command.take_args (cmd : Command l) (p : List Byte) :
    (cmd.args ++ cmd.skipped ++ p).take (l.args cmd.id) = cmd.args := by
  rw [List.append_assoc, ← cmd.length_args, List.take_left]

theorem Command.drop_bytes (cmd : Command l) (p : List Byte) :
    (cmd.args ++ cmd.skipped ++ p).drop (l.args cmd.id + l.skip cmd.id cmd.args) = p := by
  rw [← cmd.length_skipped, ← cmd.length_args, ← List.length_append, List.drop_left]

theorem delayCommands_command (cmd : Command delayLayout) (p : List Byte) :
    delayCommands pend (cmd.bytes ++ p) stoped =
      delayCommands pend p (stoped || cmd.id = .stpDsp) := by
  have hlen : ¬ (cmd.args ++ cmd.skipped ++ p).length < delayLayout.args cmd.id := by
    rw [List.length_append, List.length_append, cmd.length_args]
    omega
  rw [Command.bytes, List.cons_append, delayCommands, CommandID.ofByte_toByte]
  dsimp only
  rw [if_neg cmd.id_ne, if_neg hlen, cmd.take_args, cmd.drop_bytes]

theorem delayCommands_unknown (hc : CommandID.ofByte c = none) :
    delayCommands pend (c :: p) stoped = some (pend, stoped) := by
  rw [delayCommands, hc]

theorem delayCommands_end :
    delayCommands pend (CommandID.cmdEnd.toByte :: p) stoped = some (p, stoped) := by
  rw [delayCommands, CommandID.ofByte_toByte]
  exact if_pos rfl

theorem commands_command (s : Spu) (cmd : Command spuLayout) (p : List Byte) :
    commands s (cmd.bytes ++ p) = commands (s.command cmd.id cmd.args) p := by
  have hlen : ¬ (cmd.args ++ cmd.skipped ++ p).length < spuLayout.args cmd.id := by
    rw [List.length_append, List.length_append, cmd.length_args]
    omega
  rw [Command.bytes, List.cons_append, commands, CommandID.ofByte_toByte]
  dsimp only
  rw [if_neg cmd.id_ne, if_neg hlen, cmd.take_args, cmd.drop_bytes]

/-! ## The delays -/

theorem delayCommands_append (cs : List (Command delayLayout)) :
    delayCommands pend (cs.flatMap Command.bytes ++ p) stoped =
      delayCommands pend p (stoped || cs.any fun c => c.id = .stpDsp) := by
  induction cs generalizing stoped with
  | nil => rw [List.any_nil, Bool.or_false]; rfl
  | cons c cs ih =>
    rw [List.flatMap_cons, List.append_assoc, delayCommands_command, ih, List.any_cons,
      Bool.or_assoc]

/-- Where the loop stops, there are commands in front. -/
theorem commands_of_delayCommands {q : List Byte} {t : Bool}
    (h : delayCommands pend p stoped = some (q, t)) :
    ∃ cs : List (Command delayLayout), t = (stoped || cs.any fun c => c.id = .stpDsp) ∧
      ((∃ c tail, CommandID.ofByte c = none ∧ q = pend ∧
        p = cs.flatMap Command.bytes ++ c :: tail) ∨
        p = cs.flatMap Command.bytes ++ CommandID.cmdEnd.toByte :: q) := by
  induction p, stoped using delayCommands.induct with
  | case1 stoped =>
    rw [delayCommands] at h
    cases h
  | case2 c p stoped hc =>
    rw [delayCommands_unknown hc] at h
    cases h
    exact ⟨[], (Bool.or_false _).symm, .inl ⟨c, p, hc, rfl, rfl⟩⟩
  | case3 c p stoped hc =>
    rw [CommandID.toByte_of_ofByte hc, delayCommands_end] at h
    cases h
    exact ⟨[], (Bool.or_false _).symm, .inr (by rw [CommandID.toByte_of_ofByte hc]; rfl)⟩
  | case4 c p stoped id hc hid n hn =>
    rw [delayCommands, hc] at h
    dsimp only at h
    rw [if_neg hid, if_pos hn] at h
    cases h
  | case5 c p stoped id hc hid n hn ih =>
    rw [delayCommands, hc] at h
    dsimp only at h
    rw [if_neg hid, if_neg hn] at h
    obtain hargs | ⟨-, hskip⟩ | ⟨cmd, hcmd, -, hp⟩ := command_cases (p := p) hc hid
    · exact absurd hargs hn
    · rw [List.drop_of_length_le hskip.le, delayCommands] at h
      cases h
    · obtain ⟨cs, ht, hcs⟩ := ih h
      refine ⟨cmd :: cs, by rw [ht, List.any_cons, hcmd, Bool.or_assoc], ?_⟩
      rw [hp, List.flatMap_cons]
      refine hcs.imp ?_ ?_
      · rintro ⟨c', tail, hc', hq, htail⟩
        exact ⟨c', tail, hc', hq, by rw [List.append_assoc, ← htail]⟩
      · intro htail
        rw [List.append_assoc, ← htail]

/-- Where the commands stop: the delay is known, or the next one counts too. -/
theorem doDCSQC_append {q : List Byte} {t : Bool} (head : List Byte) (hhead : head.length = 4)
    (h : delayCommands pend p false = some (q, t)) :
    doDCSQC pend (head ++ p) =
      if pend.length < q.length ∧ t = false then (doDCSQC pend q).map (max (spuLength head))
      else some (spuLength head) := by
  obtain ⟨d1, d0, a1, a0, rfl⟩ := List.length_eq_four.mp hhead
  change doDCSQC pend (d1 :: d0 :: a1 :: a0 :: p) = _
  rw [doDCSQC]
  split
  · rename_i hnone
    cases hnone.symm.trans h
  · rename_i q' t' hsome
    obtain ⟨rfl, rfl⟩ := Prod.mk.inj (Option.some.inj (hsome.symm.trans h))
    rfl

theorem any_stop (cs : List (Command delayLayout)) :
    (cs.any fun c => c.id = .stpDsp) = true ↔ ∃ c ∈ cs, c.id = .stpDsp := by
  simp only [List.any_eq_true, decide_eq_true_eq]

theorem doDCSQC_of_delays (pend : List Byte) (hpend : pend.length = 6) (h : Delays p) :
    ∃ d, doDCSQC pend p = some d := by
  induction h with
  | unknown head cs hhead hc =>
    refine ⟨_, (doDCSQC_append _ hhead ((delayCommands_append cs).trans
      (delayCommands_unknown hc))).trans (if_neg ?_)⟩
    exact fun h => absurd h.1 (Nat.lt_irrefl _)
  | last head cs hhead hend =>
    refine ⟨_, (doDCSQC_append _ hhead ((delayCommands_append cs).trans
      delayCommands_end)).trans (if_neg ?_)⟩
    rintro ⟨hlt, hstop⟩
    obtain hshort | hsome := hend
    · omega
    · rw [Bool.false_or, (any_stop cs).mpr hsome] at hstop
      cases hstop
  | next head cs hhead htail hstop _ ih =>
    obtain ⟨d, hd⟩ := ih
    refine ⟨_, (doDCSQC_append _ hhead ((delayCommands_append cs).trans
      delayCommands_end)).trans ((if_pos ⟨by omega, ?_⟩).trans (by rw [hd]; rfl))⟩
    rw [Bool.false_or, ← Bool.not_eq_true, any_stop]
    rintro ⟨c, hc, hid⟩
    exact hstop c hc hid

theorem delays_of_doDCSQC (hpend : pend.length = 6) {d : Nat} (h : doDCSQC pend p = some d) :
    Delays p := by
  induction p using doDCSQC.induct pend generalizing d with
  | case1 d1 d0 a1 a0 p hnone =>
    rw [doDCSQC] at h
    split at h
    · cases h
    · rename_i hsome
      cases hnone.symm.trans hsome
  | case2 d1 d0 a1 a0 p q t hsome hrec ih =>
    have hrun := doDCSQC_append [d1, d0, a1, a0] rfl hsome
    rw [if_pos hrec] at hrun
    obtain ⟨d', hd', -⟩ := Option.map_eq_some_iff.mp (hrun.symm.trans h)
    obtain ⟨cs, ht, ⟨c, tail, -, rfl, -⟩ | hp⟩ := commands_of_delayCommands hsome
    · exact absurd hrec.1 (Nat.lt_irrefl _)
    · rw [hp]
      refine .next [d1, d0, a1, a0] cs rfl (by omega) (fun c hc hid => ?_) (ih hd')
      rw [hrec.2, Bool.false_or, (any_stop cs).mpr ⟨c, hc, hid⟩] at ht
      cases ht
  | case3 d1 d0 a1 a0 p q t hsome hrec =>
    obtain ⟨cs, ht, ⟨c, tail, hc, -, hp⟩ | hp⟩ := commands_of_delayCommands hsome
    · rw [hp]
      exact .unknown [d1, d0, a1, a0] cs rfl hc
    · rw [hp]
      refine .last [d1, d0, a1, a0] cs rfl ?_
      by_cases hlen : q.length ≤ 6
      · exact .inl hlen
      · refine .inr ((any_stop cs).mp ?_)
        rw [Bool.false_or] at ht
        rw [← ht, ← Bool.not_eq_false]
        exact fun hf => hrec ⟨by omega, hf⟩
  | case4 p hp =>
    rw [doDCSQC] at h
    · cases h
    · exact hp

/-! ## The commands -/

theorem commands_append (s : Spu) (cs : List (Command spuLayout)) (p : List Byte) :
    commands s (cs.flatMap Command.bytes ++ p) = commands (s.after cs) p := by
  induction cs generalizing s with
  | nil => rfl
  | cons c cs ih => rw [List.flatMap_cons, List.append_assoc, commands_command, ih]; rfl

/-- Only `CHG_COLCON` skips. -/
theorem skip_eq_zero (hid : id ≠ .chgColcon) (a : List Byte) : spuLayout.skip id a = 0 :=
  if_neg hid

theorem commands_end (s : Spu) (p : List Byte) :
    commands s (CommandID.cmdEnd.toByte :: p) =
      if 6 ≤ p.length then
        (doDCSQC (p.drop (p.length - 6)) p).map fun d => (s.delayed d, 0)
      else some (s, 0) := by
  rw [commands, CommandID.ofByte_toByte]
  exact if_pos rfl

theorem commands_closing (s : Spu) (h : Closing tail) :
    ∃ d r, commands s tail = some ({ s with mDelay := d }, r) := by
  cases h with
  | out => exact ⟨s.mDelay, -1, by rw [commands]⟩
  | unknown hc => exact ⟨s.mDelay, -1, by rw [commands, hc]⟩
  | @skip id tail hid hargs hskip =>
    have hcol : id = .chgColcon := by
      by_contra hne
      rw [skip_eq_zero hne] at hskip
      omega
    refine ⟨s.mDelay, -1, ?_⟩
    rw [commands, CommandID.ofByte_toByte]
    dsimp only
    rw [if_neg hid, if_neg (not_lt.mpr hargs), List.drop_of_length_le hskip.le, commands, hcol]
    rfl
  | short h => exact ⟨s.mDelay, 0, (commands_end s _).trans (if_neg (by omega))⟩
  | @delays tail h =>
    by_cases hlen : 6 ≤ tail.length
    · obtain ⟨d, hd⟩ := doDCSQC_of_delays (tail.drop (tail.length - 6))
        (by rw [List.length_drop]; omega) h
      exact ⟨_, 0, (commands_end s _).trans ((if_pos hlen).trans (by rw [hd]; rfl))⟩
    · exact ⟨s.mDelay, 0, (commands_end s _).trans (if_neg hlen)⟩

/-- When the loop ends, there are commands in front. -/
theorem control_of_commands {s : Spu} {r : Spu × Int} (h : commands s p = some r) :
    ∃ (cs : List (Command spuLayout)) (tail : List Byte),
      p = cs.flatMap Command.bytes ++ tail ∧ Closing tail := by
  induction s, p using commands.induct with
  | case1 s => exact ⟨[], [], rfl, .out⟩
  | case2 s c p hc => exact ⟨[], c :: p, rfl, .unknown hc⟩
  | case3 s c p hlen hc =>
    obtain rfl := CommandID.toByte_of_ofByte hc
    rw [commands_end, if_pos hlen] at h
    obtain ⟨d, hd, -⟩ := Option.map_eq_some_iff.mp h
    exact ⟨[], _, rfl, .delays (delays_of_doDCSQC (by rw [List.length_drop]; omega) hd)⟩
  | case4 s c p hlen hc =>
    obtain rfl := CommandID.toByte_of_ofByte hc
    exact ⟨[], _, rfl, .short (by omega)⟩
  | case5 s c p id hc hid n hn =>
    rw [commands, hc] at h
    dsimp only at h
    rw [if_neg hid, if_pos hn] at h
    cases h
  | case6 s c p id hc hid n hn ih =>
    rw [commands, hc] at h
    dsimp only at h
    rw [if_neg hid, if_neg hn] at h
    obtain hargs | ⟨hargs, hskip⟩ | ⟨cmd, -, -, hp⟩ := command_cases (p := p) hc hid
    · exact absurd hargs hn
    · rw [CommandID.toByte_of_ofByte hc]
      exact ⟨[], _, rfl, .skip hid hargs hskip⟩
    · obtain ⟨cs, tail, htail, hclosing⟩ := ih h
      refine ⟨cmd :: cs, tail, ?_, hclosing⟩
      rw [hp, List.flatMap_cons, List.append_assoc, ← htail]

end

theorem getSpuCmd_eq (pkt : List Byte) (s : Spu) :
    getSpuCmd pkt s = commands s (pkt.drop (s.cmdOffset + 4)) := by
  unfold getSpuCmd
  split
  · rw [List.drop_of_length_le (by omega), commands]
  · rfl

/-- **A control area**: its commands are obeyed, and nothing behind the packet is read. -/
theorem getSpuCmd_of_control {pkt : List Byte} {s : Spu} {cs : List (Command spuLayout)}
    (h : Control pkt s cs) :
    ∃ d r, getSpuCmd pkt s = some ({ s.after cs with mDelay := d }, r) := by
  obtain ⟨tail, hrest, hclosing⟩ := h
  rw [getSpuCmd_eq, hrest, commands_append]
  exact commands_closing _ hclosing

/-- **Anything else** is read beyond its end. -/
theorem control_of_getSpuCmd {pkt : List Byte} {s : Spu} {r : Spu × Int}
    (h : getSpuCmd pkt s = some r) : ∃ cs, Control pkt s cs := by
  obtain ⟨cs, tail, hrest, hclosing⟩ := control_of_commands ((getSpuCmd_eq pkt s).symm.trans h)
  exact ⟨cs, tail, hrest, hclosing⟩

end VendorAmlogic.Amsub.Vob
