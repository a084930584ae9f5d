import Mathlib.Tactic
import VendorAmlogic.Lib.Run

/-!
# The table of player ids

`amplayer/player/player_id.c`. Every function runs under `priv_pid_mutex`, so
that a run of any threads is a list of calls. `Watch` adds to the table which
player holds an id, and the opens that were not closed. `watch_sound`: ids that
are only released when nothing is open on them keep the count right.
-/

namespace VendorAmlogic.Player

open VendorAmlogic.Lib

/-! ## The source -/

def maxPlayerThreads : Nat := 32

abbrev Pid := Fin maxPlayerThreads

/-- A bit of `priv_pid_pool`, and the entries of the arrays. -/
structure Slot (α : Type) where
  held : Bool
  data : Option α
  used : Nat
  innerExit : Bool

/-- The table, with the static `last` of `player_request_pid`. -/
structure Table (α : Type) where
  slot : Pid → Slot α
  last : Int

section
variable {α : Type}

/-- `player_id_pool_init`; `last` starts at -1. -/
def Table.init : Table α := ⟨fun _ => ⟨false, none, 0, false⟩, -1⟩

def Table.set (t : Table α) (i : Pid) (s : Slot α) : Table α :=
  { t with slot := Function.update t.slot i s }

def playerSuccess : Int := 0

/-- `-(P_PRE | 0x04)` -/
def playerNotValidPid : Int := -(0x02000000 + 4)

/-- A pid as an index. -/
def index (pid : Int) : Option Pid :=
  if h : 0 ≤ pid ∧ pid.toNat < maxPlayerThreads then some ⟨pid.toNat, h.2⟩ else none

/-- `PID_isVALID`: the entry of a pid that is held. -/
def Table.valid (t : Table α) (pid : Int) : Option Pid :=
  match index pid with
  | none => none
  | some i => if (t.slot i).held then some i else none

/-- A round of the loop of `player_request_pid`. -/
def Table.probe (t : Table α) (k : Nat) : Option Pid :=
  let i : Pid := ⟨k % maxPlayerThreads, Nat.mod_lt _ (by decide)⟩
  if (t.slot i).held then none else some i

/-- The loop of `player_request_pid`: the first pid from `last + 1` on that is free. -/
def Table.free (t : Table α) : Option Pid :=
  let i := if t.last + 1 ≥ maxPlayerThreads then 0 else (t.last + 1).toNat
  (List.range maxPlayerThreads).findSome? fun j => t.probe (i + j)

/-- `player_request_pid`. -/
def playerRequestPid (t : Table α) : Table α × Int :=
  match t.free with
  | none => (t, -1)
  | some i => ({ t.set i ⟨true, none, 0, false⟩ with last := (i : Nat) }, (i : Nat))

/-- `player_release_pid`: a pid in use gives a warning only. -/
def playerReleasePid (t : Table α) (pid : Int) : Table α × Int :=
  match t.valid pid with
  | none => (t, playerNotValidPid)
  | some i => (t.set i { t.slot i with used := 0, data := none, held := false }, playerSuccess)

/-- `player_init_pid_data`. -/
def playerInitPidData (t : Table α) (pid : Int) (data : Option α) : Table α × Int :=
  match t.valid pid with
  | none => (t, playerNotValidPid)
  | some i => (t.set i { t.slot i with data := data }, playerSuccess)

/-- `player_open_pid_data`. -/
def playerOpenPidData (t : Table α) (pid : Int) : Table α × Option α :=
  match t.valid pid with
  | none => (t, none)
  | some i => (t.set i { t.slot i with used := (t.slot i).used + 1 }, (t.slot i).data)

/-- `player_close_pid_data`. -/
def playerClosePidData (t : Table α) (pid : Int) : Table α × Int :=
  match t.valid pid with
  | none => (t, playerNotValidPid)
  | some i =>
    if (t.slot i).used > 0 then
      (t.set i { t.slot i with used := (t.slot i).used - 1 }, playerSuccess)
    else (t, playerNotValidPid)

/-! ## Runs -/

/-- A call by some thread. `close` says of which player the data was that is closed; `none`
is a close that belongs to no open. -/
inductive Call (α : Type) where
  | request
  | release (pid : Int)
  | initData (pid : Int) (data : Option α)
  | openData (pid : Int)
  | closeData (pid : Int) (player : Option Nat)

/-- Players are numbered by their requests. `holder` is the player that has a pid, `opens` are
the opens that were not closed: the pid, and the player whose data it was. -/
structure Watch (α : Type) where
  table : Table α
  players : Nat
  holder : Pid → Option Nat
  opens : List (Pid × Nat)

def Watch.init : Watch α := ⟨Table.init, 0, fun _ => none, []⟩

def Watch.step (w : Watch α) : Call α → Watch α × Unit
  | .request =>
    let t := (playerRequestPid w.table).1
    match w.table.free with
    | none => ({ w with table := t }, ())
    | some i =>
      ({ w with table := t, players := w.players + 1,
                holder := Function.update w.holder i (some w.players) }, ())
  | .release pid =>
    let t := (playerReleasePid w.table pid).1
    match w.table.valid pid with
    | none => ({ w with table := t }, ())
    | some i => ({ w with table := t, holder := Function.update w.holder i none }, ())
  | .initData pid data => ({ w with table := (playerInitPidData w.table pid data).1 }, ())
  | .openData pid =>
    let t := (playerOpenPidData w.table pid).1
    match w.table.valid pid with
    | none => ({ w with table := t }, ())
    | some i => ({ w with table := t, opens := (i, (w.holder i).getD 0) :: w.opens }, ())
  | .closeData pid player =>
    let t := (playerClosePidData w.table pid).1
    match index pid, player with
    | some i, some n => ({ w with table := t, opens := w.opens.erase (i, n) }, ())
    | _, _ => ({ w with table := t }, ())

/-- What the table is to guarantee: a pid that is given out is not held and nothing is open on
it, and the count of a pid is that of the opens of its holder's data. -/
structure Sound (w : Watch α) : Prop where
  request : ∀ i : Pid, (playerRequestPid w.table).2 = (i : Nat) →
    w.holder i = none ∧ ∀ n, (i, n) ∉ w.opens
  used : ∀ i n, w.holder i = some n → (w.table.slot i).used = w.opens.count (i, n)

/-- A pid is released when nothing is open on it, and a close of a pid that is held is for an
open of the holder's data, or nothing is open on the pid. -/
def Disciplined (w : Watch α) : Call α → Prop
  | .release pid => ∀ i, w.table.valid pid = some i → ∀ n, (i, n) ∉ w.opens
  | .closeData pid player => ∀ i, w.table.valid pid = some i →
    (∃ n, player = some n ∧ w.holder i = some n ∧ (i, n) ∈ w.opens) ∨ ∀ n, (i, n) ∉ w.opens
  | _ => True

/-! ## The invariant -/

structure Inv (w : Watch α) : Prop where
  held : ∀ i, (w.table.slot i).held = (w.holder i).isSome
  current : ∀ i n, (i, n) ∈ w.opens → w.holder i = some n
  used : ∀ i n, w.holder i = some n → (w.table.slot i).used = w.opens.count (i, n)

variable {t : Table α} {w : Watch α} {i j : Pid} {pid : Int}

theorem set_slot_self (s : Slot α) : (t.set i s).slot i = s := Function.update_self ..

theorem set_slot_of_ne (s : Slot α) (h : j ≠ i) : (t.set i s).slot j = t.slot j :=
  Function.update_of_ne h ..

theorem valid_iff : t.valid pid = some i ↔ index pid = some i ∧ (t.slot i).held = true := by
  unfold Table.valid
  cases index pid with
  | none => simp
  | some k =>
    by_cases h : (t.slot k).held = true
    · simp only [h, if_true, Option.some_inj]
      exact ⟨fun e => ⟨e, e ▸ h⟩, fun e => e.1⟩
    · simp only [h, Option.some_inj]
      exact ⟨nofun, fun e => absurd (e.1 ▸ e.2) h⟩

theorem probe_held {k : Nat} (h : t.probe k = some i) : (t.slot i).held = false := by
  unfold Table.probe at h
  dsimp only at h
  split at h
  · cases h
  · rename_i hfree
    cases h
    simpa using hfree

/-- The pid that a request takes is free. -/
theorem free_held (h : t.free = some i) : (t.slot i).held = false := by
  obtain ⟨j, -, hj⟩ := List.exists_of_findSome?_eq_some h
  exact probe_held hj

theorem Inv.holder_of_valid (hw : Inv w) (h : w.table.valid pid = some i) :
    ∃ n, w.holder i = some n := by
  have := hw.held i
  rw [(valid_iff.mp h).2] at this
  exact Option.isSome_iff_exists.mp this.symm

theorem Inv.holder_of_free (hw : Inv w) (h : w.table.free = some i) : w.holder i = none := by
  have := hw.held i
  rw [free_held h] at this
  exact Option.isNone_iff_eq_none.mp (by simpa using this.symm)

theorem Inv.not_open (hw : Inv w) (h : w.holder i = none) (n : Nat) : (i, n) ∉ w.opens := by
  intro hm
  rw [hw.current i n hm] at h
  cases h

theorem inv_init : Inv (Watch.init : Watch α) :=
  ⟨fun _ => rfl, fun _ _ h => (List.not_mem_nil h).elim, fun _ _ h => nomatch h⟩

theorem request_eq (h : (playerRequestPid t).2 = (i : Nat)) : t.free = some i := by
  unfold playerRequestPid at h
  cases hf : t.free with
  | none =>
    rw [hf] at h
    dsimp only at h
    omega
  | some j =>
    rw [hf] at h
    dsimp only at h
    exact congrArg some (Fin.ext (by omega))

theorem Inv.sound (hw : Inv w) : Sound w := by
  refine ⟨fun i h => ?_, hw.used⟩
  have hnone := hw.holder_of_free (request_eq h)
  exact ⟨hnone, hw.not_open hnone⟩

/-- One entry is changed, with its holder and the opens on it. -/
theorem Inv.set {s : Slot α} {last : Int} {players : Nat} {holder : Pid → Option Nat}
    {opens : List (Pid × Nat)} (hw : Inv w) (hframe : ∀ j, j ≠ i → holder j = w.holder j)
    (hopens : ∀ j n, j ≠ i → opens.count (j, n) = w.opens.count (j, n))
    (hheld : s.held = (holder i).isSome) (hcur : ∀ n, (i, n) ∈ opens → holder i = some n)
    (hused : ∀ n, holder i = some n → s.used = opens.count (i, n)) :
    Inv ⟨{ w.table.set i s with last := last }, players, holder, opens⟩ := by
  refine ⟨fun j => ?_, fun j n hm => ?_, fun j n hh => ?_⟩
  · by_cases hj : j = i
    · subst hj
      exact (congrArg Slot.held (set_slot_self s)).trans hheld
    · have hheld' := hw.held j
      rw [← hframe j hj] at hheld'
      exact (congrArg Slot.held (set_slot_of_ne s hj)).trans hheld'
  · by_cases hj : j = i
    · subst hj
      exact hcur n hm
    · have hpos := List.count_pos_iff.mpr hm
      rw [hopens j n hj] at hpos
      exact (hframe j hj).trans (hw.current j n (List.count_pos_iff.mp hpos))
  · by_cases hj : j = i
    · subst hj
      exact (congrArg Slot.used (set_slot_self s)).trans (hused n hh)
    · have hused' := hw.used j n ((hframe j hj).symm.trans hh)
      rw [← hopens j n hj] at hused'
      exact (congrArg Slot.used (set_slot_of_ne s hj)).trans hused'

theorem Inv.request (hw : Inv w) : Inv (w.step .request).1 := by
  dsimp only [Watch.step, playerRequestPid]
  cases hf : w.table.free with
  | none => exact hw
  | some i =>
    have hnone := hw.holder_of_free hf
    refine hw.set (fun j hj => Function.update_of_ne hj ..) (fun _ _ _ => rfl) ?_ ?_ ?_
    · rw [Function.update_self]
      rfl
    · exact fun n hm => absurd hm (hw.not_open hnone n)
    · exact fun n _ => (List.count_eq_zero.mpr (hw.not_open hnone n)).symm

theorem Inv.release (hw : Inv w) (hd : Disciplined w (.release pid)) :
    Inv (w.step (.release pid)).1 := by
  dsimp only [Watch.step, playerReleasePid]
  cases hv : w.table.valid pid with
  | none => exact hw
  | some i =>
    refine hw.set (fun j hj => Function.update_of_ne hj ..) (fun _ _ _ => rfl) ?_ ?_ ?_
    · rw [Function.update_self]
      rfl
    · exact fun n hm => absurd hm (hd i hv n)
    · intro n hn
      rw [Function.update_self] at hn
      cases hn

theorem Inv.initData {data : Option α} (hw : Inv w) : Inv (w.step (.initData pid data)).1 := by
  dsimp only [Watch.step, playerInitPidData]
  cases hv : w.table.valid pid with
  | none => exact hw
  | some i =>
    exact hw.set (fun _ _ => rfl) (fun _ _ _ => rfl) (hw.held i) (hw.current i) (hw.used i)

theorem Inv.openData (hw : Inv w) : Inv (w.step (.openData pid)).1 := by
  dsimp only [Watch.step, playerOpenPidData]
  cases hv : w.table.valid pid with
  | none => exact hw
  | some i =>
    obtain ⟨n, hn⟩ := hw.holder_of_valid hv
    dsimp only
    rw [hn, Option.getD_some]
    refine hw.set (fun _ _ => rfl) (fun j m hj => ?_) (hw.held i) (fun m hm => ?_) (fun m hm => ?_)
    · rw [List.count_cons_of_ne (by simp [Ne.symm hj])]
    · rcases List.mem_cons.mp hm with heq | hm
      · cases heq
        exact hn
      · exact hw.current i m hm
    · cases hn.symm.trans hm
      rw [List.count_cons_self]
      exact congrArg (· + 1) (hw.used i n hn)

theorem Inv.closeData {player : Option Nat} (hw : Inv w)
    (hd : Disciplined w (.closeData pid player)) : Inv (w.step (.closeData pid player)).1 := by
  dsimp only [Watch.step, playerClosePidData]
  cases hv : w.table.valid pid with
  | none =>
    -- nothing is open on a pid that is not held
    cases hidx : index pid with
    | none => exact hw
    | some i =>
      cases player with
      | none => exact hw
      | some n =>
        have hnot : (i, n) ∉ w.opens := by
          intro hm
          have hh := hw.held i
          rw [hw.current i n hm, Option.isSome_some] at hh
          rw [valid_iff.mpr ⟨hidx, hh⟩] at hv
          cases hv
        dsimp only
        rw [List.erase_of_not_mem hnot]
        exact hw
  | some i =>
    rw [(valid_iff.mp hv).1]
    rcases hd i hv with ⟨n, rfl, hn, hm⟩ | hnone
    · have hused := hw.used i n hn
      have hpos := List.count_pos_iff.mpr hm
      dsimp only
      rw [if_pos (by omega)]
      refine hw.set (fun _ _ => rfl) (fun j m hj => ?_) (hw.held i) (fun m hm' => ?_)
        (fun m hm' => ?_)
      · rw [List.count_erase_of_ne (by simp [hj])]
      · exact hw.current i m (List.mem_of_mem_erase hm')
      · cases hn.symm.trans hm'
        rw [List.count_erase_self]
        exact congrArg (· - 1) hused
    · -- the guard of the source: a count of 0 stays
      obtain ⟨n, hn⟩ := hw.holder_of_valid hv
      have hused : (w.table.slot i).used = 0 :=
        (hw.used i n hn).trans (List.count_eq_zero.mpr (hnone n))
      dsimp only
      rw [if_neg (by omega)]
      cases player with
      | none => exact hw
      | some m =>
        dsimp only
        rw [List.erase_of_not_mem (hnone m)]
        exact hw

/-- **One call**. -/
theorem Inv.step (c : Call α) (hw : Inv w) (hd : Disciplined w c) : Inv (w.step c).1 := by
  cases c with
  | request => exact hw.request
  | release pid => exact hw.release hd
  | initData pid data => exact hw.initData
  | openData pid => exact hw.openData
  | closeData pid player => exact hw.closeData hd

end

/-- **Disciplined runs**: the table is right in every state of them. -/
theorem watch_sound {α : Type} {calls : List (Call α)}
    (h : Each Disciplined Watch.step Watch.init calls) : Sound (run Watch.step Watch.init calls).1 :=
  (run_inv (fun _ c hw hd => hw.step c hd) inv_init h).sound

/-- The first pid. -/
def pid0 : Pid := ⟨0, by decide⟩

/-- The pid that follows it. -/
def pid1 : Pid := ⟨1, by decide⟩

/-- Two players: the first one from its start to its end, with one close too many. -/
theorem watch_sound_twoPlayers : Sound (run Watch.step Watch.init
    [.request, .initData 0 (some ()), .openData 0, .request, .openData 1, .closeData 0 (some 0),
      .closeData 0 none, .release 0, .openData 1, .closeData 1 (some 1)]).1 := by
  have hclose : ∀ {w : Watch Unit} {i k : Pid}, w.table.valid (k : Nat) = some i → i = k := by
    intro w i k h
    have hidx := (valid_iff.mp h).1
    rw [index, dif_pos ⟨Int.natCast_nonneg _, k.isLt⟩] at hidx
    exact (Option.some.inj hidx).symm
  refine watch_sound ⟨trivial, trivial, trivial, trivial, trivial, fun i hi => ?_, fun i hi => ?_,
    fun i hi n => ?_, trivial, fun i hi => ?_, trivial⟩
  · obtain rfl : i = pid0 := hclose hi
    exact .inl ⟨0, rfl, by decide, by decide⟩
  · obtain rfl : i = pid0 := hclose hi
    exact .inr fun n hn => absurd (List.mem_singleton.mp hn) (by simp [pid0])
  · obtain rfl : i = pid0 := hclose hi
    exact fun hn => absurd (List.mem_singleton.mp hn) (by simp [pid0])
  · obtain rfl : i = pid1 := hclose hi
    exact .inl ⟨1, rfl, by decide, by decide⟩

/-- A pid is released while it is open, all other ones are taken and the pid is given out again.
Its data is opened once more, and then the first open is closed. -/
def lateClose : List (Call Unit) :=
  [.request, .openData 0, .release 0] ++ List.replicate 32 .request ++
    [.openData 0, .closeData 0 (some 0)]

/-- **A pid is given out while it is open**, and the late close is taken for one of the new
player. -/
theorem lateClose_unsound :
    ¬ Sound (run Watch.step Watch.init (lateClose.take 34)).1 ∧
      ¬ Sound (run Watch.step Watch.init lateClose).1 := by
  refine ⟨fun h => ?_, fun h => ?_⟩
  · exact (h.request pid0 (by decide +kernel)).2 0 (by decide +kernel)
  · exact absurd (h.used pid0 32 (by decide +kernel)) (by decide +kernel)

end VendorAmlogic.Player
