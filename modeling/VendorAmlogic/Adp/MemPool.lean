import VendorAmlogic.Lib.Bytes
import VendorAmlogic.Lib.Run

/-!
# The memory pool

`AM_MEM_PoolInit`, `AM_MEM_PoolAlloc`, `AM_MEM_PoolClear` and `AM_MEM_PoolFree` of
`am_adp/am_mem/am_mem_pool.c`. The blocks of a pool are the list from `pools` on,
and what `malloc` returns is part of a call. A run goes with a record of what the
system has given and of what the pool has handed out.
-/

namespace VendorAmlogic.Adp.MemPool

open VendorAmlogic.Lib

/-! ## Model -/

/-- The sizes of the types. -/
inductive Abi where
  | ilp32 | lp64

/-- `AM_PTR_ALIGN`. -/
def Abi.ptrAlign : Abi → Int
  | ilp32 => 4
  | lp64 => 8

/-- `sizeof(AM_MEM_BlockHeader_t)`: a pointer and two `int`s. -/
def Abi.headerSize (abi : Abi) : Int := abi.ptrAlign + 8

/-- `AM_MEM_BlockHeader_t` and where it is. -/
structure BlockHeader where
  addr : Int
  size : Int
  used : Int

/-- `AM_MEM_Pool_t`. -/
structure Pool where
  poolSize : Int
  pools : List BlockHeader

/-- `size` bytes from `start` on. -/
structure Region where
  start : Int
  size : Int
  deriving DecidableEq

/-- What a call returns, with the block it has got from the system. -/
structure Allocated where
  pool : Pool
  ptr : Option Int
  block : Option Region

def amMemPoolInit (poolSize : Int) : Pool := ⟨poolSize, []⟩

/-- `(size+AM_PTR_ALIGN-1)&~(AM_PTR_ALIGN-1)`, back in an `int`. -/
def alignUp (abi : Abi) (size : Int) : Int :=
  i32 ((size + abi.ptrAlign - 1) / abi.ptrAlign * abi.ptrAlign)

/-- A block of its own: `next` is set in it, and `pools` stays as it is. -/
def allocBlock (abi : Abi) (pool : Pool) (size : Int) (malloc : Option Int) : Allocated :=
  let allocs := max size pool.poolSize
  match malloc with
  | none => ⟨pool, none, none⟩
  | some hdr => ⟨pool, some (hdr + abi.headerSize), some ⟨hdr, allocs + abi.headerSize⟩⟩

def amMemPoolAlloc (abi : Abi) (pool : Pool) (size : Int) (malloc : Option Int) : Allocated :=
  let size := alignUp abi size
  match pool.pools with
  | [] => allocBlock abi pool size malloc
  | hdr :: next =>
    if size > i32 (hdr.size - hdr.used) then allocBlock abi pool size malloc
    else
      ⟨{ pool with pools := { hdr with used := i32 (hdr.used + size) } :: next },
        some (hdr.addr + abi.headerSize + hdr.used), none⟩

/-- The loop of `AM_MEM_PoolClear`: what it frees, and the last block. -/
def clearLoop (hdr : BlockHeader) : List BlockHeader → List Int × BlockHeader
  | [] => ([], hdr)
  | next :: rest =>
    let r := clearLoop next rest
    (hdr.addr :: r.1, r.2)

/-- The pool, and the blocks that are freed. -/
def amMemPoolClear (pool : Pool) : Pool × List Int :=
  match pool.pools with
  | [] => (pool, [])
  | hdr :: next =>
    let r := clearLoop hdr next
    ({ pool with pools := [{ r.2 with used := 0 }] }, r.1)

def amMemPoolFree (pool : Pool) : Pool × List Int :=
  ({ pool with pools := [] }, pool.pools.map BlockHeader.addr)

/-! ## Runs -/

inductive Op where
  | alloc (size : Int) (malloc : Option Int)
  | clear
  | free

/-- A pool, the blocks the system has given and not got back, what has been handed out since the
last `clear` or `free`, and the block of the last allocation since then with what is used of it. -/
structure State where
  pool : Pool
  live : List Region
  regions : List Region
  latest : Option (Region × Int)

def fresh (poolSize : Int) : State := ⟨amMemPoolInit poolSize, [], [], none⟩

/-- What is used of the block of the last allocation, one of `size` bytes later. -/
def nextLatest (latest : Option (Region × Int)) (r : Allocated) (size : Int) :
    Option (Region × Int) :=
  match r.ptr, r.block with
  | none, _ => latest
  | some _, some b => some (b, size)
  | some _, none => latest.map fun l => (l.1, l.2 + size)

/-- A call, with the blocks it frees. -/
def step (abi : Abi) (s : State) : Op → State × List Int
  | .alloc size malloc =>
    let r := amMemPoolAlloc abi s.pool size malloc
    (⟨r.pool, r.block.toList ++ s.live, (r.ptr.map fun p => ⟨p, size⟩).toList ++ s.regions,
      nextLatest s.latest r (alignUp abi size)⟩, [])
  | .clear =>
    let r := amMemPoolClear s.pool
    (⟨r.1, s.live.filter (·.start ∉ r.2), [], none⟩, r.2)
  | .free =>
    let r := amMemPoolFree s.pool
    (⟨r.1, s.live.filter (·.start ∉ r.2), [], none⟩, r.2)

/-! ## What a pool is for -/

def Region.Apart (a b : Region) : Prop := a.start + a.size ≤ b.start ∨ b.start + b.size ≤ a.start

def Region.Inside (a b : Region) : Prop :=
  b.start ≤ a.start ∧ a.start + a.size ≤ b.start + b.size

instance (a b : Region) : Decidable (a.Apart b) := inferInstanceAs (Decidable (_ ∨ _))

/-- The regions handed out are apart, aligned, and in blocks of the system. -/
structure Placed (abi : Abi) (s : State) : Prop where
  apart : s.regions.Pairwise Region.Apart
  aligned : ∀ r ∈ s.regions, r.start % abi.ptrAlign = 0
  inside : ∀ r ∈ s.regions, ∃ b ∈ s.live, r.Inside b

/-- Every block the system has given is in the list of the pool. -/
def Reachable (s : State) : Prop := ∀ b ∈ s.live, ∃ hdr ∈ s.pool.pools, hdr.addr = b.start

/-- `AM_MEM_PoolFree` gives back every block, each once. -/
def FreesAll (abi : Abi) (s : State) : Op → Prop
  | .free => (step abi s .free).2.Perm (s.live.map Region.start)
  | _ => True

/-- No block is asked for as long as there is room in that of the allocation before. -/
def Shares (abi : Abi) (s : State) : Op → Prop
  | .alloc size malloc =>
    ∀ l ∈ s.latest, l.2 + alignUp abi size ≤ l.1.size - abi.headerSize →
      (amMemPoolAlloc abi s.pool size malloc).block = none ∧
        (amMemPoolAlloc abi s.pool size malloc).ptr ≠ none
  | _ => True

/-- A call does what the pool is for. -/
structure Right (abi : Abi) (s : State) (op : Op) : Prop where
  placed : Placed abi (step abi s op).1
  reachable : Reachable (step abi s op).1
  freesAll : FreesAll abi s op
  shares : Shares abi s op

/-- A size is a positive `int`, and a block of the system is aligned and apart from those it has
given. -/
def Allowed (abi : Abi) (s : State) : Op → Prop
  | .alloc size malloc =>
    0 < size ∧ size < 2 ^ 31 ∧
      ∀ b ∈ (amMemPoolAlloc abi s.pool size malloc).block,
        b.start % abi.ptrAlign = 0 ∧ ∀ b' ∈ s.live, b.Apart b'
  | _ => True

instance instDecidableAllowed (abi : Abi) (s : State) : ∀ op, Decidable (Allowed abi s op)
  | .alloc .. => inferInstanceAs (Decidable (_ ∧ _ ∧ ∀ b ∈ Allocated.block _, _ ∧ _))
  | .clear => isTrue trivial
  | .free => isTrue trivial

/-- The system gives no memory. -/
def NoMemory : Op → Prop
  | .alloc _ malloc => malloc = none
  | _ => True

instance instDecidableNoMemory : ∀ op, Decidable (NoMemory op)
  | .alloc _ malloc => inferInstanceAs (Decidable (malloc = none))
  | .clear => isTrue trivial
  | .free => isTrue trivial

/-- A size that gets memory can be aligned in an `int`, or is not above the size of the pool. -/
def Fits (abi : Abi) (poolSize : Int) : Op → Prop
  | .alloc size malloc => malloc = none ∨ size ≤ 2 ^ 31 - abi.ptrAlign ∨ size ≤ poolSize
  | _ => True

instance instDecidableFits (abi : Abi) (poolSize : Int) : ∀ op, Decidable (Fits abi poolSize op)
  | .alloc .. => inferInstanceAs (Decidable (_ ∨ _ ∨ _))
  | .clear => isTrue trivial
  | .free => isTrue trivial

/-! ## One call -/

section Call

variable {abi : Abi} {poolSize size : Int} {s : State}

theorem ptrAlign_cases (abi : Abi) : abi.ptrAlign = 4 ∨ abi.ptrAlign = 8 := by
  cases abi
  · exact .inl rfl
  · exact .inr rfl

theorem le_alignUp (h : 0 < size) (hle : size ≤ 2 ^ 31 - abi.ptrAlign) :
    size ≤ alignUp abi size := by
  unfold alignUp
  rcases ptrAlign_cases abi with ha | ha
  all_goals
    rw [ha] at hle ⊢
    rw [i32_eq_self (by omega) (by omega)]
    omega

/-- The greatest sizes are aligned to a number that no `int` has. -/
theorem alignUp_wraps (hgt : 2 ^ 31 - abi.ptrAlign < size) (hlt : size < 2 ^ 31) :
    alignUp abi size = -2 ^ 31 := by
  have hup : (size + abi.ptrAlign - 1) / abi.ptrAlign * abi.ptrAlign = 2 ^ 31 := by
    rcases ptrAlign_cases abi with ha | ha
    all_goals
      rw [ha] at hgt ⊢
      omega
  rw [alignUp, hup]
  rfl

/-- The block that is asked for has the size, unless that is cut. -/
theorem le_allocs_iff (h : 0 < size) (hlt : size < 2 ^ 31) :
    size ≤ max (alignUp abi size) poolSize ↔ size ≤ 2 ^ 31 - abi.ptrAlign ∨ size ≤ poolSize := by
  rw [le_max_iff]
  refine or_congr ⟨fun hle => ?_, fun hle => le_alignUp h hle⟩ Iff.rfl
  by_contra hgt
  rw [alignUp_wraps (by omega) hlt] at hle
  omega

/-- A pool that has no block in its list. -/
def Unlinked (poolSize : Int) (s : State) : Prop := s.pool = ⟨poolSize, []⟩

theorem Unlinked.alloc (h : Unlinked poolSize s) (abi : Abi) (size : Int) (malloc : Option Int) :
    amMemPoolAlloc abi s.pool size malloc = allocBlock abi s.pool (alignUp abi size) malloc := by
  unfold amMemPoolAlloc
  rw [h]

theorem Unlinked.step_none (h : Unlinked poolSize s) (abi : Abi) (size : Int) :
    (step abi s (.alloc size none)).1 = s := by
  have hcall : amMemPoolAlloc abi s.pool size none = ⟨s.pool, none, none⟩ := h.alloc abi size none
  unfold step
  dsimp only
  rw [hcall]
  rfl

/-- An allocation takes a block of its own. -/
theorem Unlinked.step_some (h : Unlinked poolSize s) (abi : Abi) (size hdr : Int) :
    (step abi s (.alloc size (some hdr))).1 =
      let b : Region := ⟨hdr, max (alignUp abi size) poolSize + abi.headerSize⟩
      ⟨s.pool, b :: s.live, ⟨hdr + abi.headerSize, size⟩ :: s.regions,
        some (b, alignUp abi size)⟩ := by
  have hsize : s.pool.poolSize = poolSize := by rw [h]
  have hcall : amMemPoolAlloc abi s.pool size (some hdr) = ⟨s.pool, some (hdr + abi.headerSize),
      some ⟨hdr, max (alignUp abi size) poolSize + abi.headerSize⟩⟩ := by
    rw [h.alloc, ← hsize]
    rfl
  unfold step
  dsimp only
  rw [hcall]
  rfl

/-- No call puts a block into the list. -/
theorem Unlinked.after (h : Unlinked poolSize s) (abi : Abi) (op : Op) :
    Unlinked poolSize (step abi s op).1 := by
  cases op with
  | alloc size malloc =>
    show (amMemPoolAlloc abi s.pool size malloc).pool = _
    rw [h.alloc]
    cases malloc <;> exact h
  | clear =>
    show (amMemPoolClear s.pool).1 = _
    rw [h]
    rfl
  | free =>
    show (amMemPoolFree s.pool).1 = _
    rw [h]
    rfl

/-- Nor is one given back. -/
theorem Unlinked.freed (h : Unlinked poolSize s) (abi : Abi) (op : Op) :
    (step abi s op).2 = [] := by
  cases op with
  | alloc size malloc => rfl
  | clear =>
    show (amMemPoolClear s.pool).2 = _
    rw [h]
    rfl
  | free =>
    show (amMemPoolFree s.pool).2 = _
    rw [h]
    rfl

theorem not_apart_of_mem {a b : Region} {x : Int} (ha : a.start ≤ x ∧ x < a.start + a.size)
    (hb : b.start ≤ x ∧ x < b.start + b.size) : ¬ a.Apart b := by
  unfold Region.Apart
  omega

theorem Region.Apart.of_inside {a b c d : Region} (h : b.Apart d) (hin : a.Inside b)
    (hin' : c.Inside d) : a.Apart c := by
  unfold Region.Apart Region.Inside at *
  omega

theorem placed_nothing (abi : Abi) (pool : Pool) (live : List Region) (l : Option (Region × Int)) :
    Placed abi ⟨pool, live, [], l⟩ :=
  ⟨.nil, fun _ h => absurd h List.not_mem_nil, fun _ h => absurd h List.not_mem_nil⟩

/-- A region in a new block is placed when the block has room for it. -/
theorem placed_some_iff {hdr : Int} (h : Placed abi s) (hs : Unlinked poolSize s)
    (hpool : 0 < poolSize) (hallowed : Allowed abi s (.alloc size (some hdr))) :
    Placed abi (step abi s (.alloc size (some hdr))).1 ↔
      size ≤ max (alignUp abi size) poolSize := by
  obtain ⟨hpos, -, hblock⟩ := hallowed
  rw [hs.alloc] at hblock
  obtain ⟨haligned, hfree⟩ := hblock _ rfl
  have hsize : s.pool.poolSize = poolSize := by rw [hs]
  have halign := ptrAlign_cases abi
  have hhdr : abi.headerSize = abi.ptrAlign + 8 := rfl
  have hroom : 0 < max (alignUp abi size) poolSize := lt_max_of_lt_right hpool
  rw [hsize] at hfree
  rw [hs.step_some]
  dsimp only
  constructor
  · intro hplaced
    obtain ⟨b, hb, hin⟩ := hplaced.inside _ List.mem_cons_self
    rcases List.mem_cons.mp hb with rfl | hb
    · unfold Region.Inside at hin
      dsimp only at hin
      omega
    · -- the region starts in its own block, which is apart from the others
      refine absurd (hfree b hb) (not_apart_of_mem (x := hdr + abi.headerSize) ?_ ?_)
      · dsimp only
        omega
      · unfold Region.Inside at hin
        dsimp only at hin
        omega
  · intro hle
    have hin : Region.Inside ⟨hdr + abi.headerSize, size⟩
        ⟨hdr, max (alignUp abi size) poolSize + abi.headerSize⟩ := by
      unfold Region.Inside
      dsimp only
      omega
    refine ⟨List.pairwise_cons.mpr ⟨fun r hr => ?_, h.apart⟩, fun r hr => ?_, fun r hr => ?_⟩
    · obtain ⟨b, hb, hin'⟩ := h.inside r hr
      exact (hfree b hb).of_inside hin hin'
    · rcases List.mem_cons.mp hr with rfl | hr
      · change hdr % abi.ptrAlign = 0 at haligned
        change (hdr + abi.headerSize) % abi.ptrAlign = 0
        rcases halign with ha | ha
        all_goals
          rw [ha] at haligned ⊢
          omega
      · exact h.aligned r hr
    · rcases List.mem_cons.mp hr with rfl | hr
      · exact ⟨_, List.mem_cons_self, hin⟩
      · obtain ⟨b, hb, hin'⟩ := h.inside r hr
        exact ⟨b, List.mem_cons_of_mem _ hb, hin'⟩

theorem placed_step (hpool : 0 < poolSize) (s : State) (op : Op)
    (h : Unlinked poolSize s ∧ Placed abi s) (hallowed : Allowed abi s op) :
    (Placed abi (step abi s op).1 ↔ Fits abi poolSize op) ∧
      (Fits abi poolSize op →
        Unlinked poolSize (step abi s op).1 ∧ Placed abi (step abi s op).1) := by
  obtain ⟨hs, hplaced⟩ := h
  have hiff : Placed abi (step abi s op).1 ↔ Fits abi poolSize op := by
    cases op with
    | alloc size malloc =>
      cases malloc with
      | none =>
        rw [hs.step_none]
        exact iff_of_true hplaced (.inl rfl)
      | some hdr =>
        rw [placed_some_iff hplaced hs hpool hallowed, le_allocs_iff hallowed.1 hallowed.2.1]
        exact (or_iff_right (Option.some_ne_none hdr)).symm
    | clear => exact iff_of_true (placed_nothing ..) trivial
    | free => exact iff_of_true (placed_nothing ..) trivial
  exact ⟨hiff, fun hfits => ⟨hs.after abi op, hiff.mpr hfits⟩⟩

/-- In a pool that has got nothing, a call is right when it gets nothing. -/
theorem right_step (s : State) (op : Op) (h : s = fresh poolSize) :
    (Right abi s op ↔ NoMemory op) ∧ (NoMemory op → (step abi s op).1 = fresh poolSize) := by
  have hs : Unlinked poolSize s := by rw [h]; rfl
  have hnothing : Reachable (fresh poolSize) := fun b hb => absurd hb List.not_mem_nil
  have hlatest (l : Region × Int) : l ∉ (fresh poolSize).latest := Option.not_mem_none l
  cases op with
  | alloc size malloc =>
    cases malloc with
    | none =>
      have hsame := (hs.step_none abi size).trans h
      refine ⟨iff_of_true ⟨?_, ?_, trivial, ?_⟩ rfl, fun _ => hsame⟩
      · rw [hsame]
        exact placed_nothing ..
      · rw [hsame]
        exact hnothing
      · rw [h]
        exact fun l hl => absurd hl (hlatest l)
    | some hdr =>
      refine ⟨iff_of_false (fun hright => ?_) (Option.some_ne_none hdr), fun hno => ?_⟩
      · -- the block that has been got is not in the list
        have hreach := hright.reachable
        rw [hs.step_some] at hreach
        obtain ⟨b, hb, -⟩ := hreach _ List.mem_cons_self
        rw [hs] at hb
        exact absurd hb List.not_mem_nil
      · exact absurd hno (Option.some_ne_none hdr)
  | clear =>
    rw [h]
    exact ⟨iff_of_true ⟨placed_nothing .., hnothing, trivial, trivial⟩ trivial, fun _ => rfl⟩
  | free =>
    rw [h]
    exact ⟨iff_of_true ⟨placed_nothing .., hnothing, .nil, trivial⟩ trivial, fun _ => rfl⟩

end Call

/-! ## Runs -/

section Runs

variable {abi : Abi} {poolSize : Int} {ops : List Op}

/-- **The pool** is one as long as it gets no memory. What it hands out is placed as it should be
when the sizes can be aligned, or fit into a block anyway. -/
theorem pool_runs (abi : Abi) (hpool : 0 < poolSize)
    (hops : Each (Allowed abi) (step abi) (fresh poolSize) ops) :
    (Each (Right abi) (step abi) (fresh poolSize) ops ↔ ∀ op ∈ ops, NoMemory op) ∧
      (Each (fun s op => Placed abi (step abi s op).1) (step abi) (fresh poolSize) ops ↔
        ∀ op ∈ ops, Fits abi poolSize op) := by
  constructor
  · exact (each_iff right_step rfl).trans each_mem_iff
  · have hstart : Unlinked poolSize (fresh poolSize) ∧ Placed abi (fresh poolSize) :=
      ⟨rfl, placed_nothing ..⟩
    exact (each_iff_of_frame (placed_step hpool) hstart hops).trans each_mem_iff

/-- No call gives back a block. -/
theorem frees_nothing (abi : Abi) (poolSize : Int) (ops : List Op) :
    ∀ freed ∈ (run (step abi) (fresh poolSize) ops).2, freed = [] := by
  have hstart : Unlinked poolSize (fresh poolSize) := rfl
  have hstep (s : State) (op : Op) (hs : Unlinked poolSize s) (_ : True) :
      Unlinked poolSize (step abi s op).1 ∧ (step abi s op).2 = [] :=
    ⟨hs.after abi op, hs.freed abi op⟩
  exact run_out hstep hstart (each_of_forall (fun _ _ => trivial) _ _)

end Runs

/-- Two blocks of a pool of 100 bytes, and a pool that gets none. -/
theorem pool_runs_small :
    Each (fun s op => Placed .lp64 (step .lp64 s op).1) (step .lp64) (fresh 100)
        [.alloc 5 (some 4096), .clear, .alloc 300 (some 8192), .free] ∧
      Each (Right .lp64) (step .lp64) (fresh 100) [.alloc 5 none, .clear, .free] :=
  ⟨(pool_runs .lp64 (by decide) (by decide)).2.mpr (by decide),
    (pool_runs .lp64 (by decide) (by decide)).1.mpr (by decide)⟩

/-- **The first block** is lost. -/
theorem not_right_alloc :
    ¬ Each (Right .lp64) (step .lp64) (fresh 100) [.alloc 5 (some 4096)] := by
  rintro ⟨hright, -⟩
  exact absurd ((right_step (fresh 100) (.alloc 5 (some 4096)) rfl).1.mp hright) (by decide)

end VendorAmlogic.Adp.MemPool
