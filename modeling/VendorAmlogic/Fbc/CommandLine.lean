import VendorAmlogic.Lib.CString
import VendorAmlogic.Lib.Words
import VendorAmlogic.Fbc.ImageStream

/-!
# The command line of the updater

`data_stream_read` in command state, `parse_cmd_line` and `handle_cmd` of
`boot/update.c`, and the loop around them in `boot/update_main.c`. What is typed
is stored in `cmd`, the zero byte behind it in `buf`; that `cmd` is ended all the
same is left to `init_update_ctrl_t`, which clears it before every command. Of a
line that is too long the rest is the next command.
-/

namespace VendorAmlogic.Fbc.Cmd

open VendorAmlogic.Lib

def maxCmdLength : Nat := 0x40
def configUpdateCmdMaxargs : Nat := 5

/-- A place that is written. -/
inductive Place where
  | cmd (i : Nat)
  | buf (i : Nat)
  | argv (i : Nat)
  deriving DecidableEq

/-- `update_ctrl_t`: `cmd` with the byte of padding behind it, and `argv` as places in it. -/
structure Ctrl where
  cmd : List Byte
  argv : Nat → Option Nat
  buf : Mem

/-- `init_update_ctrl_t`. -/
def initUpdateCtrl (buf : Mem) : Ctrl where
  cmd := List.replicate (maxCmdLength + 1) 0
  argv := fun _ => none
  buf := buf

def isEol (c : Byte) : Bool := c == 0x0a || c == 0x0d

def isBlank (c : Byte) : Bool := c == 0x20 || c == 0x09

/-! ## Reading and splitting -/

/-- `data_stream_read` in command state, at byte `i`, with the places written. -/
def dataStreamRead (u : Ctrl) (i : Nat) : List Byte → Option (Ctrl × List Place × List Byte)
  | [] => none
  | c :: stream =>
    if isEol c = true ∨ i = maxCmdLength then
      let buf := if i = maxCmdLength then Function.update u.buf (maxCmdLength - 1) 0 else u.buf
      some ({ u with buf := Function.update buf i 0 },
        if i = maxCmdLength then [.buf (maxCmdLength - 1), .buf i] else [.buf i], stream)
    else
      (dataStreamRead { u with cmd := u.cmd.set i c } (i + 1) stream).map fun r =>
        (r.1, .cmd i :: r.2.1, r.2.2)

structure Parsed where
  nargs : Nat
  cmd : List Byte
  argv : Nat → Option Nat
  places : List Place

/-- `parse_cmd_line`, from `line` on, with so many arguments left. -/
def parseCmdLine (cmd : List Byte) (argv : Nat → Option Nat) : Nat → Nat → Option Parsed
  | 0, _ => some ⟨configUpdateCmdMaxargs, cmd, argv, []⟩
  | left + 1, line =>
    let nargs := configUpdateCmdMaxargs - (left + 1)
    let line := line + ((cmd.drop line).takeWhile isBlank).length
    match cmd[line]? with
    | none => none
    | some c =>
      if c = 0 then some ⟨nargs, cmd, Function.update argv nargs none, [.argv nargs]⟩
      else
        let argv := Function.update argv nargs (some line)
        let line := line + ((cmd.drop line).takeWhile fun c => c != 0 && !isBlank c).length
        match cmd[line]? with
        | none => none
        | some c =>
          if c = 0 then
            some ⟨nargs + 1, cmd, Function.update argv (nargs + 1) none,
              [.argv nargs, .argv (nargs + 1)]⟩
          else
            (parseCmdLine (cmd.set line 0) argv left (line + 1)).map fun r =>
              { r with places := .argv nargs :: .cmd line :: r.places }

/-- The string at `argv[i]`. -/
def argAt (cmd : List Byte) (argv : Nat → Option Nat) (i : Nat) : List Byte :=
  (argv i).elim [] fun line => cstr (cmd.drop line)

/-- A call of `parse_cmd`: what was typed, what is left of that, and what came of it. -/
structure Call where
  input : List Byte
  rest : List Byte
  readPlaces : List Place
  parsePlaces : List Place
  args : List (List Byte)

def parseCmd (u : Ctrl) (stream : List Byte) : Option (Call × Ctrl × List Byte) :=
  (dataStreamRead u 0 stream).bind fun r =>
    (parseCmdLine r.1.cmd r.1.argv configUpdateCmdMaxargs 0).map fun q =>
      (⟨stream, r.2.2, r.2.1, q.places, (List.range q.nargs).map (argAt q.cmd q.argv)⟩,
        { r.1 with cmd := q.cmd, argv := q.argv }, r.2.2)

/-! ## Commands -/

def isxdigit (c : Byte) : Bool :=
  isdigit c || (0x41 ≤ c && c ≤ 0x46) || (0x61 ≤ c && c ≤ 0x66)

def xdigit (c : Byte) : Nat := if isdigit c then c.toNat - 48 else (tolower c).toNat - 87

/-- `strtoul` in base 16, where a `long` has 32 bits. -/
def strtoul16 (s : List Byte) : Nat :=
  let s := s.dropWhile isspace
  let neg := s.head? = some 0x2d
  let s := if neg ∨ s.head? = some 0x2b then s.tail else s
  let s := if s.head? = some 0x30 ∧ s.tail.head?.map tolower = some 0x78 ∧
    (s.drop 2).head?.any isxdigit = true then s.drop 2 else s
  let v := (s.takeWhile isxdigit).foldl (fun v d => 16 * v + xdigit d) 0
  if 2 ^ 32 ≤ v then 2 ^ 32 - 1 else if neg then u32 (-(v : Int)) else v

def configRebootCmd : List Byte := bytes "reboot"
def configExitCmd : List Byte := bytes "exit"
def configUpdateCmd : List Byte := bytes "upgrade"

/-- `handle_cmd` behind `parse_cmd`: what it returns, where `do_update` takes so many bytes of the
stream, or does not end. -/
def handleCmd (doUpdate : Nat → Nat → List Byte → Option Nat) (u : Ctrl) (stream : List Byte) :
    Option (Int × Ctrl × List Byte) :=
  let argv := fun i => (u.argv i).map fun line => cstr (u.cmd.drop line)
  if argv 0 = some configRebootCmd ∨ argv 0 = some configExitCmd then some (1, u, stream)
  else if argv 0 = some configUpdateCmd then
    match argv 1, argv 2 with
    | some offset, some size =>
      if legalAddress pqBinaryStart fbcFactoryStart (strtoul16 offset) (strtoul16 size) then
        (doUpdate (strtoul16 offset) (strtoul16 size) stream).map fun n =>
          (0, initUpdateCtrl u.buf, stream.drop n)
      else some (-1, u, stream)
    | _, _ => some (0, initUpdateCtrl u.buf, stream)
  else some (0, initUpdateCtrl u.buf, stream)

section
variable {u u' : Ctrl} {i : Nat} {stream rest : List Byte} {places : List Place} {call : Call}
  {doUpdate : Nat → Nat → List Byte → Option Nat} {ret : Int}

theorem dataStreamRead_length (h : dataStreamRead u i stream = some (u', places, rest)) :
    rest.length < stream.length := by
  induction stream generalizing u i u' places rest with
  | nil => cases h
  | cons c stream ih =>
    rw [dataStreamRead] at h
    split at h
    · cases h
      exact Nat.lt_succ_self _
    · obtain ⟨⟨u1, places1, rest1⟩, h1, h2⟩ := Option.map_eq_some_iff.mp h
      cases h2
      exact (ih h1).trans (Nat.lt_succ_self _)

theorem parseCmd_length (h : parseCmd u stream = some (call, u', rest)) :
    rest.length < stream.length := by
  obtain ⟨⟨u1, places, rest1⟩, h1, h2⟩ := Option.bind_eq_some_iff.mp h
  obtain ⟨q, -, h3⟩ := Option.map_eq_some_iff.mp h2
  cases h3
  exact dataStreamRead_length h1

/-- What a command leaves, and the state for the next one. -/
theorem handleCmd_spec (h : handleCmd doUpdate u stream = some (ret, u', rest)) :
    rest.length ≤ stream.length ∧ (ret = 0 → u' = initUpdateCtrl u.buf) := by
  unfold handleCmd at h
  dsimp only at h
  split at h
  · cases h
    exact ⟨le_refl _, fun h0 => absurd h0 (by decide)⟩
  split at h
  · split at h
    · split at h
      · obtain ⟨n, -, h1⟩ := Option.map_eq_some_iff.mp h
        cases h1
        exact ⟨by rw [List.length_drop]; omega, fun _ => rfl⟩
      · cases h
        exact ⟨le_refl _, fun h0 => absurd h0 (by decide)⟩
    · cases h
      exact ⟨le_refl _, fun _ => rfl⟩
  · cases h
    exact ⟨le_refl _, fun _ => rfl⟩

end

/-- The loop around `handle_cmd`, with its calls of `parse_cmd`. -/
def session (doUpdate : Nat → Nat → List Byte → Option Nat) (u : Ctrl) (stream : List Byte) :
    List Call :=
  match _h : parseCmd u stream with
  | none => []
  | some (call, u, rest) =>
    call :: match _h' : handleCmd doUpdate u rest with
    | none => []
    | some (ret, u, rest) => if ret = 0 then session doUpdate u rest else []
termination_by stream.length
decreasing_by exact (handleCmd_spec _h').1.trans_lt (parseCmd_length _h)

/-! ## Lines -/

/-- The line that is typed at the call. -/
def Call.line (c : Call) : List Byte := c.input.takeWhile fun b => !isEol b

/-- Reading stores in `cmd`, and nowhere else. -/
def Call.OnlyCmd (c : Call) : Prop := ∀ pl ∈ c.readPlaces, ∃ i, i < maxCmdLength ∧ pl = .cmd i

/-- All places are in their arrays. -/
def Call.InBounds (c : Call) : Prop :=
  ∀ pl ∈ c.readPlaces ++ c.parsePlaces, (∃ i, i < maxCmdLength ∧ pl = .cmd i) ∨
    (∃ i, i < maxBufSize ∧ pl = .buf i) ∨ (∃ i, i ≤ configUpdateCmdMaxargs ∧ pl = .argv i)

/-- The line is taken, and the arguments are the first words of it. -/
structure Call.Splits (c : Call) : Prop where
  taken : ∃ t, isEol t = true ∧ c.input = c.line ++ t :: c.rest
  args : c.args = (words isBlank (c.line.take maxCmdLength)).take configUpdateCmdMaxargs

/-- Reading stays in `cmd`, and the line is split. -/
structure Call.Right (c : Call) : Prop where
  onlyCmd : c.OnlyCmd
  inBounds : c.InBounds
  splits : c.Splits

/-- The line fits, and its first words have no zero byte. -/
def Call.Plain (c : Call) : Prop :=
  c.line.length ≤ maxCmdLength ∧ ∀ w ∈ (words isBlank c.line).take configUpdateCmdMaxargs, 0 ∉ w

/-! ## Reading -/

section
variable {u u' : Ctrl} {stream rest line : List Byte} {places : List Place}

/-- What is read: up to 64 bytes of a line, and the byte behind them. -/
structure ReadSpec (u u' : Ctrl) (front : List Byte) (stream rest : List Byte)
    (places : List Place) (line : List Byte) (c : Byte) : Prop where
  stream : stream = line ++ c :: rest
  noEol : ∀ b ∈ line, isEol b = false
  fits : front.length + line.length ≤ maxCmdLength
  ends : isEol c = true ∨ front.length + line.length = maxCmdLength
  cmd : u'.cmd = front ++ line ++
    List.replicate (maxCmdLength + 1 - (front.length + line.length)) 0
  argv : u'.argv = u.argv
  inBounds : ∀ pl ∈ places,
    (∃ i, i < maxCmdLength ∧ pl = .cmd i) ∨ ∃ i, i ≤ maxCmdLength ∧ pl = .buf i
  ended : ∃ i, Place.buf i ∈ places

theorem dataStreamRead_spec {front : List Byte} (hf : front.length ≤ maxCmdLength)
    (hcmd : u.cmd = front ++ List.replicate (maxCmdLength + 1 - front.length) 0)
    (h : dataStreamRead u front.length stream = some (u', places, rest)) :
    ∃ line c, ReadSpec u u' front stream rest places line c := by
  induction stream generalizing u front places with
  | nil => cases h
  | cons c stream ih =>
    rw [dataStreamRead] at h
    by_cases hend : isEol c = true ∨ front.length = maxCmdLength
    · rw [if_pos hend] at h
      dsimp only at h
      refine ⟨[], c, ?_⟩
      cases h
      refine ⟨rfl, fun b hb => absurd hb List.not_mem_nil, by simpa using hf, by simpa using hend,
        ?_, rfl, ?_, ⟨front.length, ?_⟩⟩
      · rw [hcmd, List.append_nil]
        rfl
      · intro pl hpl
        split at hpl <;> simp only [List.mem_cons, List.not_mem_nil, or_false] at hpl
        · rcases hpl with rfl | rfl
          · exact .inr ⟨_, Nat.sub_le _ _, rfl⟩
          · exact .inr ⟨_, hf, rfl⟩
        · exact .inr ⟨_, hf, hpl⟩
      · split <;> simp
    · rw [if_neg hend] at h
      obtain ⟨⟨u1, places1, rest1⟩, h1, h2⟩ := Option.map_eq_some_iff.mp h
      cases h2
      rw [not_or, Bool.not_eq_true] at hend
      have hlt : front.length < maxCmdLength := by omega
      have hset : u.cmd.set front.length c =
          (front ++ [c]) ++ List.replicate (maxCmdLength + 1 - (front ++ [c]).length) 0 := by
        rw [hcmd, List.set_append_right _ _ (le_refl _), Nat.sub_self, List.length_append,
          List.length_singleton,
          show maxCmdLength + 1 - front.length = maxCmdLength + 1 - (front.length + 1) + 1 by omega,
          List.replicate_succ, List.set_cons_zero, List.append_assoc]
        rfl
      have hlen : front.length + 1 = (front ++ [c]).length := by simp
      rw [hlen] at h1
      obtain ⟨line, d, hspec⟩ := ih (by rw [← hlen]; omega) hset h1
      refine ⟨c :: line, d, ?_⟩
      have hcount : (front ++ [c]).length + line.length = front.length + (c :: line).length := by
        simp only [List.length_append, List.length_cons, List.length_nil]
        omega
      refine ⟨by rw [hspec.stream]; rfl, ?_, hcount ▸ hspec.fits, hcount ▸ hspec.ends, ?_,
        hspec.argv, ?_, ?_⟩
      · intro b hb
        rcases List.mem_cons.mp hb with rfl | hb
        · exact hend.1
        · exact hspec.noEol b hb
      · rw [hspec.cmd, hcount, List.append_assoc front, List.singleton_append]
      · intro pl hpl
        rcases List.mem_cons.mp hpl with rfl | hpl
        · exact .inl ⟨_, hlt, rfl⟩
        · exact hspec.inBounds pl hpl
      · obtain ⟨i, hi⟩ := hspec.ended
        exact ⟨i, List.mem_cons_of_mem _ hi⟩

end

/-! ## Splitting -/

section
variable {front s : List Byte} {argv : Nat → Option Nat} {left : Nat}

/-- What splitting leaves: the words as strings, and what was before them as it was. -/
structure ParseSpec (front s : List Byte) (argv : Nat → Option Nat) (left : Nat) (q : Parsed) :
    Prop where
  cmd : ∃ s', q.cmd = front ++ s'
  nargs : q.nargs = configUpdateCmdMaxargs - left + ((words isBlank (cstr s)).take left).length
  argv : ∀ i, i < configUpdateCmdMaxargs - left → q.argv i = argv i
  args : (List.range ((words isBlank (cstr s)).take left).length).map
    (fun j => argAt q.cmd q.argv (configUpdateCmdMaxargs - left + j)) =
      (words isBlank (cstr s)).take left
  places : ∀ pl ∈ q.places, (∃ i, i < front.length + (cstr s).length ∧ pl = .cmd i) ∨
    ∃ i, i ≤ configUpdateCmdMaxargs ∧ pl = .argv i

theorem ne_zero_of_isBlank {c : Byte} (h : isBlank c = true) : c ≠ 0 := by
  rintro rfl
  cases h

theorem getElem?_behind (front a t : List Byte) (c : Byte) :
    (front ++ (a ++ c :: t))[front.length + a.length]? = some c := by
  rw [← List.append_assoc, ← List.length_append, List.getElem?_append_right (le_refl _),
    Nat.sub_self]
  rfl

theorem drop_behind (front a t : List Byte) :
    (front ++ (a ++ t)).drop (front.length + a.length) = t := by
  rw [← List.append_assoc, ← List.length_append, List.drop_left]

theorem parseCmdLine_spec (hl : left ≤ configUpdateCmdMaxargs) (h0 : 0 ∈ s) :
    ∃ q, parseCmdLine (front ++ s) argv left front.length = some q ∧
      ParseSpec front s argv left q := by
  induction left generalizing front s argv with
  | zero =>
    refine ⟨_, rfl, ⟨s, rfl⟩, ?_, fun i _ => rfl, ?_, fun pl hpl => by cases hpl⟩
    · rw [List.take_zero]
      rfl
    · rw [List.take_zero]
      rfl
  | succ left ih =>
    -- the blanks
    obtain ⟨b, c, s1, rfl, hb, hc, hrun⟩ := exists_run (p := isBlank) ⟨0, h0, rfl⟩
    have hb0 : ∀ x ∈ b, x ≠ 0 := fun x hx => ne_zero_of_isBlank (hb x hx)
    have hcstr := cstr_append hb0 (c :: s1)
    have hzero : 0 ∈ c :: s1 := (List.mem_append.mp h0).resolve_left fun h => hb0 0 h rfl
    rw [parseCmdLine]
    dsimp only
    rw [List.drop_left, hrun, getElem?_behind]
    dsimp only
    by_cases hc0 : c = 0
    · subst hc0
      have hnone : words isBlank (cstr (b ++ 0 :: s1)) = [] := by
        rw [hcstr, words_seps hb, cstr_zero, words_nil]
      rw [if_pos rfl]
      refine ⟨_, rfl, ⟨_, rfl⟩, ?_, ?_, ?_, ?_⟩
      · rw [hnone, List.take_nil]
        rfl
      · exact fun i hi => Function.update_of_ne (by omega) _ _
      · rw [hnone, List.take_nil]
        rfl
      · intro pl hpl
        exact .inr ⟨_, Nat.sub_le _ _, List.mem_singleton.mp hpl⟩
    rw [if_neg hc0, drop_behind]
    -- the word
    obtain ⟨w, d, s2, hsplit, hw, hd, hword⟩ := exists_run
      (p := fun c : Byte => c != 0 && !isBlank c) ⟨0, hzero, rfl⟩
    have hw0 : ∀ x ∈ w, x ≠ 0 := fun x hx => by
      have := hw x hx
      simp only [Bool.and_eq_true, bne_iff_ne] at this
      exact this.1
    have hwb : ∀ x ∈ w, isBlank x = false := fun x hx => by
      have := hw x hx
      simp only [Bool.and_eq_true, Bool.not_eq_true'] at this
      exact this.2
    have hne : w ≠ [] := by
      rintro rfl
      obtain ⟨rfl, -⟩ := List.cons.inj hsplit
      exact hc0 (by simpa [hc] using hd)
    have hat (t : List Byte) :
        cstr ((front ++ (b ++ (w ++ 0 :: t))).drop (front.length + b.length)) = w := by
      rw [drop_behind, cstr_append hw0, cstr_zero, List.append_nil]
    have hget : (front ++ (b ++ (w ++ d :: s2)))[front.length + b.length + w.length]? = some d := by
      rw [← List.append_assoc front, ← List.length_append]
      exact getElem?_behind (front ++ b) w s2 d
    have hnargs : configUpdateCmdMaxargs - left = configUpdateCmdMaxargs - (left + 1) + 1 := by
      omega
    have hcstr (t : List Byte) : cstr (b ++ (w ++ t)) = b ++ (w ++ cstr t) := by
      rw [cstr_append hb0, cstr_append hw0]
    rw [hword, hsplit, hget]
    dsimp only
    by_cases hd0 : d = 0
    · subst hd0
      have hone : (words isBlank (cstr (b ++ (w ++ 0 :: s2)))).take (left + 1) = [w] := by
        rw [hcstr, words_seps hb, cstr_zero, List.append_nil, words_single hwb hne,
          List.take_succ_cons, List.take_nil]
      rw [if_pos rfl]
      refine ⟨_, rfl, ⟨_, rfl⟩, ?_, ?_, ?_, ?_⟩
      · rw [hone]
        rfl
      · intro i hi
        dsimp only
        rw [Function.update_of_ne (by omega), Function.update_of_ne (by omega)]
      · rw [hone]
        change [argAt _ _ (configUpdateCmdMaxargs - (left + 1))] = [w]
        unfold argAt
        dsimp only
        rw [Function.update_of_ne (by omega), Function.update_self, Option.elim_some, hat]
      · intro pl hpl
        simp only [List.mem_cons, List.not_mem_nil, or_false] at hpl
        rcases hpl with rfl | rfl
        · exact .inr ⟨_, Nat.sub_le _ _, rfl⟩
        · exact .inr ⟨_, by omega, rfl⟩
    · have hblank : isBlank d = true := (by simpa using hd : ¬ d = 0 → isBlank d = true) hd0
      have hmore : (words isBlank (cstr (b ++ (w ++ d :: s2)))).take (left + 1) =
          w :: (words isBlank (cstr s2)).take left := by
        rw [hcstr, words_seps hb, show cstr (d :: s2) = d :: cstr s2 from
          List.takeWhile_cons_of_pos (by simpa using hd0), words_cons hwb hne hblank,
          List.take_succ_cons]
      have hset : (front ++ (b ++ (w ++ d :: s2))).set (front.length + b.length + w.length) 0 =
          (front ++ (b ++ (w ++ [0]))) ++ s2 := by
        rw [← List.append_assoc front, ← List.append_assoc, ← List.length_append,
          ← List.length_append, List.set_append_right _ _ (le_refl _), Nat.sub_self,
          List.set_cons_zero]
        simp only [List.append_assoc, List.singleton_append]
      have hlen : front.length + b.length + w.length + 1 =
          (front ++ (b ++ (w ++ [0]))).length := by
        simp only [List.length_append, List.length_singleton]
        omega
      have h0' : 0 ∈ s2 := by
        rw [hsplit] at hzero
        rcases List.mem_append.mp hzero with h | h
        · exact absurd rfl (hw0 0 h)
        · exact (List.mem_cons.mp h).resolve_left (Ne.symm hd0)
      obtain ⟨q, hq, hspec⟩ := @ih (front ++ (b ++ (w ++ [0]))) s2
        (Function.update argv (configUpdateCmdMaxargs - (left + 1))
          (some (front.length + b.length))) (by omega) h0'
      obtain ⟨s', hs'⟩ := hspec.cmd
      have hcmd : q.cmd = front ++ (b ++ (w ++ 0 :: s')) := by
        rw [hs']
        simp only [List.append_assoc, List.singleton_append]
      rw [if_neg hd0, hset, hlen, hq]
      refine ⟨_, rfl, ⟨_, hcmd⟩, ?_, ?_, ?_, ?_⟩
      · dsimp only
        rw [hmore, List.length_cons, hspec.nargs]
        omega
      · intro i hi
        dsimp only
        rw [hspec.argv i (by omega), Function.update_of_ne (by omega)]
      · dsimp only
        rw [hmore, List.length_cons, List.range_succ_eq_map, List.map_cons, List.map_map]
        congr 1
        · rw [Nat.add_zero, argAt, hspec.argv _ (by omega), Function.update_self, Option.elim_some,
            hcmd, hat]
        · refine Eq.trans (List.map_congr_left fun j _ => ?_) hspec.args
          rw [Function.comp_apply, Nat.succ_eq_add_one, hnargs, Nat.add_assoc, Nat.add_comm 1]
      · have hcount : front.length + b.length + w.length + 1 + (cstr s2).length ≤
            front.length + (cstr (b ++ (w ++ d :: s2))).length := by
          rw [hcstr, show cstr (d :: s2) = d :: cstr s2 from
            List.takeWhile_cons_of_pos (by simpa using hd0)]
          simp only [List.length_append, List.length_cons]
          omega
        intro pl hpl
        rcases List.mem_cons.mp hpl with rfl | hpl
        · exact .inr ⟨_, Nat.sub_le _ _, rfl⟩
        rcases List.mem_cons.mp hpl with rfl | hpl
        · exact .inl ⟨_, by omega, rfl⟩
        rcases hspec.places pl hpl with ⟨i, hi, rfl⟩ | hargv
        · exact .inl ⟨i, by omega, rfl⟩
        · exact .inr hargv

end

/-- Up to a zero byte the first words are those of the line, if none of those has one. -/
theorem take_words_cstr (line : List Byte) (n : Nat) :
    (words isBlank (cstr line)).take n = (words isBlank line).take n ↔
      ∀ w ∈ (words isBlank line).take n, 0 ∉ w := by
  constructor
  · intro h w hw h0
    rw [← h] at hw
    have hmem := mem_of_mem_words (List.mem_of_mem_take hw) h0
    have := List.all_eq_true.mp List.all_takeWhile 0 hmem
    cases this
  · intro h
    by_cases hz : (0 : Byte) ∈ line
    · obtain ⟨a, d, rest, hline, ha, hd, hcstr⟩ := exists_run (p := fun c : Byte => decide (c ≠ 0))
        ⟨0, hz, rfl⟩
      obtain rfl : d = 0 := by simpa using hd
      obtain ⟨front, v, back, hwords, hv, hfront⟩ :=
        words_append (p := isBlank) (c := (0 : Byte)) rfl a rest
      obtain ⟨more, hmore⟩ := hfront
      have hn : n ≤ front.length := by
        by_contra hlt
        refine h v ?_ hv
        rw [hline, hwords, List.mem_take_iff_getElem]
        exact ⟨front.length, by simp; omega, by simp⟩
      rw [show cstr line = a from hcstr, ← hmore, hline, hwords, List.take_append_of_le_length hn,
        List.take_append_of_le_length hn]
    · have hall := cstr_append (fun x hx h0 => hz (h0 ▸ hx)) []
      rw [List.append_nil, show cstr [] = [] from rfl, List.append_nil] at hall
      rw [hall]

/-! ## Calls -/

section
variable {buf : Mem} {stream rest : List Byte} {call : Call} {u : Ctrl}

theorem cstr_append_zeros (line : List Byte) (n : Nat) :
    cstr (line ++ List.replicate n 0) = cstr line := by
  induction line with
  | nil => cases n <;> rfl
  | cons c line ih =>
    unfold cstr at ih ⊢
    rw [List.cons_append, List.takeWhile_cons, List.takeWhile_cons, ih]

/-- The line, and what is read of it. -/
theorem line_cases (call : Call) {line : List Byte} {c : Byte}
    (hcall : call.input = line ++ c :: rest)
    (hline : ∀ b ∈ line, isEol b = false) (hfits : line.length ≤ maxCmdLength)
    (hends : isEol c = true ∨ line.length = maxCmdLength) :
    call.line.take maxCmdLength = line ∧
      (isEol c = true ∧ call.line = line ∨ isEol c = false ∧ maxCmdLength < call.line.length) := by
  have hall : call.line = line ++ (c :: rest).takeWhile fun b => !isEol b := by
    rw [Call.line, hcall]
    exact List.takeWhile_append_of_pos fun b hb => by rw [hline b hb]; rfl
  cases hc : isEol c with
  | true =>
    rw [List.takeWhile_cons_of_neg (by rw [hc]; decide), List.append_nil] at hall
    exact ⟨by rw [hall, List.take_of_length_le hfits], .inl ⟨rfl, hall⟩⟩
  | false =>
    have hlen : line.length = maxCmdLength := hends.resolve_left (by rw [hc]; decide)
    rw [List.takeWhile_cons_of_pos (by rw [hc]; rfl)] at hall
    refine ⟨by rw [hall, ← hlen, List.take_left], .inr ⟨rfl, ?_⟩⟩
    rw [hall, List.length_append, List.length_cons]
    omega

/-- **A call** on a fresh controller. -/
theorem parseCmd_fresh (h : parseCmd (initUpdateCtrl buf) stream = some (call, u, rest)) :
    ¬ call.OnlyCmd ∧ call.InBounds ∧ (call.Splits ↔ call.Plain) := by
  obtain ⟨⟨u1, places, rest1⟩, h1, h2⟩ := Option.bind_eq_some_iff.mp h
  obtain ⟨q, hq, h3⟩ := Option.map_eq_some_iff.mp h2
  obtain ⟨line, c, hread⟩ := dataStreamRead_spec
    (by decide : ([] : List Byte).length ≤ maxCmdLength) rfl h1
  have hfits : line.length ≤ maxCmdLength := by
    have := hread.fits
    rwa [List.length_nil, Nat.zero_add] at this
  have hends : isEol c = true ∨ line.length = maxCmdLength := by
    have := hread.ends
    rwa [List.length_nil, Nat.zero_add] at this
  have hcmd : u1.cmd = [] ++ (line ++ List.replicate (maxCmdLength + 1 - line.length) 0) := by
    have := hread.cmd
    rwa [List.length_nil, Nat.zero_add, List.append_assoc] at this
  have hzero : 0 ∈ line ++ List.replicate (maxCmdLength + 1 - line.length) 0 :=
    List.mem_append_right _ (List.mem_replicate.mpr ⟨by omega, rfl⟩)
  obtain ⟨q', hq', hparse⟩ := @parseCmdLine_spec [] _ u1.argv _ (le_refl configUpdateCmdMaxargs)
    hzero
  dsimp only at hq
  rw [hcmd] at hq
  obtain rfl : q' = q := Option.some.inj (hq'.symm.trans hq)
  obtain ⟨-, hnargs, -, hargs, hplaces⟩ := hparse
  rw [cstr_append_zeros] at hnargs hargs hplaces
  rw [Nat.sub_self, Nat.zero_add] at hnargs
  simp only [Nat.sub_self, Nat.zero_add] at hargs
  cases h3
  obtain ⟨htake, hcases⟩ := line_cases ⟨stream, rest1, places, q'.places, _⟩ hread.stream
    hread.noEol hfits hends
  refine ⟨?_, ?_, ?_⟩
  · intro honly
    obtain ⟨i, hi⟩ := hread.ended
    obtain ⟨j, -, hj⟩ := honly _ hi
    cases hj
  · intro pl hpl
    rcases List.mem_append.mp hpl with hpl | hpl
    · rcases hread.inBounds pl hpl with hin | ⟨i, hi, rfl⟩
      · exact .inl hin
      · exact .inr (.inl ⟨i, hi.trans_lt (by decide), rfl⟩)
    · rcases hplaces pl hpl with ⟨i, hi, rfl⟩ | hin
      · have hle : (cstr line).length ≤ line.length := (List.takeWhile_prefix _).length_le
        exact .inl ⟨i, by rw [List.length_nil] at hi; omega, rfl⟩
      · exact .inr (.inr hin)
  · have hsplits : (List.range q'.nargs).map (argAt q'.cmd q'.argv) =
        (words isBlank line).take configUpdateCmdMaxargs ↔
          ∀ w ∈ (words isBlank line).take configUpdateCmdMaxargs, 0 ∉ w := by
      rw [hnargs, hargs]
      exact take_words_cstr line _
    constructor
    · rintro ⟨⟨t, ht, htaken⟩, hwords⟩
      rw [htake] at hwords
      rcases hcases with ⟨-, hline⟩ | ⟨-, hlong⟩
      · exact ⟨hline ▸ hfits, hline ▸ hsplits.mp hwords⟩
      · have hlen := congrArg List.length (htaken.symm.trans hread.stream)
        simp only [List.length_append, List.length_cons] at hlen
        omega
    · rintro ⟨hle, hplain⟩
      rcases hcases with ⟨heol, hline⟩ | ⟨-, hlong⟩
      · rw [hline] at hplain
        refine ⟨⟨c, heol, by rw [hline]; exact hread.stream⟩, ?_⟩
        rw [htake]
        exact hsplits.mpr hplain
      · exact absurd hle (Nat.not_le.mpr hlong)

theorem parseCmd_input (h : parseCmd (initUpdateCtrl buf) stream = some (call, u, rest)) :
    call.input = stream := by
  obtain ⟨r, -, h2⟩ := Option.bind_eq_some_iff.mp h
  obtain ⟨q, -, h3⟩ := Option.map_eq_some_iff.mp h2
  cases h3
  rfl

theorem mem_session {doUpdate : Nat → Nat → List Byte → Option Nat}
    (h : parseCmd (initUpdateCtrl buf) stream = some (call, u, rest)) :
    call ∈ session doUpdate (initUpdateCtrl buf) stream := by
  rw [session]
  split
  · rename_i hnone
    rw [hnone] at h
    cases h
  · rename_i h'
    obtain ⟨rfl, -⟩ := Prod.mk.inj (Option.some.inj (h'.symm.trans h))
    exact List.mem_cons_self

end

/-- **A session**: no call reads into `cmd` only; all stay in their arrays; and a call splits its
line when that is plain. -/
theorem session_calls (doUpdate : Nat → Nat → List Byte → Option Nat) (buf : Mem)
    (stream : List Byte) :
    ∀ call ∈ session doUpdate (initUpdateCtrl buf) stream,
      ¬ call.Right ∧ call.InBounds ∧ (call.Splits ↔ call.Plain) := by
  induction hn : stream.length using Nat.strong_induction_on generalizing buf stream with
  | _ n ih =>
    intro call hcall
    rw [session] at hcall
    split at hcall
    · cases hcall
    · rename_i call1 u rest h
      obtain ⟨honly, hin, hsplits⟩ := parseCmd_fresh h
      rcases List.mem_cons.mp hcall with rfl | hcall
      · exact ⟨fun hright => honly hright.onlyCmd, hin, hsplits⟩
      split at hcall
      · cases hcall
      · rename_i ret u' rest' h'
        split at hcall
        · rename_i h0
          obtain ⟨hle, hfresh⟩ := handleCmd_spec h'
          rw [hfresh h0] at hcall
          exact ih _ (hn ▸ hle.trans_lt (parseCmd_length h)) _ _ rfl call hcall
        · cases hcall

/-- A line of one word. -/
theorem splits_oneWord : ∃ call ∈ session (fun _ _ _ => none) (initUpdateCtrl fun _ => 0)
    [0x61, 0x0d], call.Splits := by
  obtain ⟨⟨call, u, rest⟩, h⟩ := Option.isSome_iff_exists.mp
    (by decide +kernel : (parseCmd (initUpdateCtrl fun _ => 0) [0x61, 0x0d]).isSome = true)
  refine ⟨call, mem_session h, (session_calls (fun _ _ _ => none) (fun _ => 0) _ call (mem_session h)).2.2.mpr ?_⟩
  rw [Call.Plain, Call.line, parseCmd_input h]
  decide

/-- **A short line and a long one**: `a`, whose end goes to `buf`, and 66 times `a`, of which the
last one is the next command. -/
theorem not_right_lines :
    (∃ call ∈ session (fun _ _ _ => none) (initUpdateCtrl fun _ => 0) [0x61, 0x0d],
      ¬ call.Right) ∧
    ∃ call ∈ session (fun _ _ _ => none) (initUpdateCtrl fun _ => 0)
      (List.replicate 66 0x61 ++ [0x0d]), ¬ call.Splits := by
  constructor
  · obtain ⟨⟨call, u, rest⟩, h⟩ := Option.isSome_iff_exists.mp
      (by decide +kernel : (parseCmd (initUpdateCtrl fun _ => 0) [0x61, 0x0d]).isSome = true)
    exact ⟨call, mem_session h, fun hright => (parseCmd_fresh h).1 hright.onlyCmd⟩
  · obtain ⟨⟨call, u, rest⟩, h⟩ := Option.isSome_iff_exists.mp
      (by decide +kernel : (parseCmd (initUpdateCtrl fun _ => 0)
        (List.replicate 66 0x61 ++ [0x0d])).isSome = true)
    refine ⟨call, mem_session h, fun hsplits => ?_⟩
    have hle := ((parseCmd_fresh h).2.2.mp hsplits).1
    rw [Call.line, parseCmd_input h] at hle
    exact absurd hle (by decide)

end VendorAmlogic.Fbc.Cmd
