import Fuxi.Shm.Arena.ShmArena

/-!
# The blocks that an object lists

The last holder of an object returns the blocks in `block_index`, which has room for
`MAX_BLOCK_NUM` of them. `NewObject` and `MakeSharedAndMove` refuse an arena that has acquired
more, but the resource of the arena may go on to acquire blocks after them.
-/

namespace Fuxi.Shm.Arena

open Lib Mm

variable {Tid : Type*} [DecidableEq Tid]

/-- An arena with `is_owner_`, and the pointers that `NewObject` and `MakeSharedAndMove` have
returned, without the null pointers. -/
structure ArenaRun (Tid : Type*) where
  arena : ShmArena Tid
  isOwner : Bool := true
  handedOver : List Nat := []

/-- The calls: an allocation on the resource, `NewObject` with the allocation of the object and
those of its constructor, and `MakeSharedAndMove`. -/
inductive ArenaCall (Tid : Type*)
  | allocate (q : Request Tid)
  | newObject (q : Request Tid) (construct : List (Request Tid))
  | makeSharedAndMove (ptr : Nat)

namespace ArenaRun

/-- Neither `NewObject` nor `MakeSharedAndMove` goes on. -/
def refuses (s : ArenaRun Tid) : Bool :=
  s.isOwner = false || decide (maxBlockNum < s.arena.blockIndexTable.length)

/-- `MakeSharedAndMove`, or 0 for a null pointer. -/
def makeSharedAndMove (s : ArenaRun Tid) (ptr : Nat) : ArenaRun Tid × Nat :=
  if s.refuses then (s, 0)
  else ({ s with isOwner := if ptr = 0 then s.isOwner else false }, ptr)

/-- `NewObject`. -/
def newObject (s : ArenaRun Tid) (q : Request Tid) (construct : List (Request Tid)) :
    ArenaRun Tid × Nat :=
  if s.refuses then (s, 0)
  else
    let ptr := ((s.arena.resource q.thread).allocate q.bytes q.alignment (s.arena.answers q)).1
    { s with arena := (q :: construct).foldl ShmArena.request s.arena }.makeSharedAndMove ptr

/-- Keep the pointer that a call has returned. -/
def keep (r : ArenaRun Tid × Nat) : ArenaRun Tid :=
  { r.1 with handedOver := if r.2 = 0 then r.1.handedOver else r.2 :: r.1.handedOver }

/-- The runs of an arena with blocks of `blockSize` bytes. -/
def machine (Tid : Type*) [DecidableEq Tid] (blockSize : Nat) :
    Machine (ArenaRun Tid) (ArenaCall Tid) where
  start s := s = { arena := ShmArena.initialized Tid blockSize }
  step s
    | .allocate q => some { s with arena := s.arena.request q }
    | .newObject q construct => some (keep (s.newObject q construct))
    | .makeSharedAndMove ptr => some (keep (s.makeSharedAndMove ptr))

/-- Once an object has been handed over it lists the blocks of its arena in order. -/
def Recorded (s : ArenaRun Tid) : Prop :=
  s.handedOver ≠ [] → s.arena.objectBlocks = s.arena.blockIndexTable

variable {blockSize : Nat} {s : ArenaRun Tid}

/-- The object lists the first blocks of the arena. -/
def Lists (s : ArenaRun Tid) : Prop :=
  s.arena.objectBlocks = s.arena.blockIndexTable.take maxBlockNum

theorem request_lists (a : ShmArena Tid) (q : Request Tid)
    (h : a.objectBlocks = a.blockIndexTable.take maxBlockNum) :
    (a.request q).objectBlocks = (a.request q).blockIndexTable.take maxBlockNum :=
  a.objectBlocks_acquire q _ h

theorem foldl_request_lists (qs : List (Request Tid)) (a : ShmArena Tid)
    (h : a.objectBlocks = a.blockIndexTable.take maxBlockNum) :
    (qs.foldl ShmArena.request a).objectBlocks =
      (qs.foldl ShmArena.request a).blockIndexTable.take maxBlockNum := by
  induction qs generalizing a with
  | nil => exact h
  | cons q qs ih => exact ih (a.request q) (request_lists a q h)

omit [DecidableEq Tid] in
theorem makeSharedAndMove_arena (s : ArenaRun Tid) (ptr : Nat) :
    (s.makeSharedAndMove ptr).1.arena = s.arena := by
  unfold makeSharedAndMove
  split_ifs <;> rfl

theorem Lists.newObject (h : s.Lists) (q : Request Tid) (construct : List (Request Tid)) :
    (s.newObject q construct).1.Lists := by
  unfold ArenaRun.newObject
  split_ifs
  · exact h
  · rw [Lists, makeSharedAndMove_arena]
    exact foldl_request_lists (q :: construct) s.arena h

omit [DecidableEq Tid] in
/-- A pointer that is not null is returned only for an arena with few blocks. -/
theorem makeSharedAndMove_few {ptr : Nat} (returned : (s.makeSharedAndMove ptr).2 ≠ 0) :
    s.arena.blockIndexTable.length ≤ maxBlockNum := by
  by_contra more
  have refused : s.refuses = true := by simp [refuses, not_le.mp more]
  simp [makeSharedAndMove, refused] at returned

theorem newObject_few {q : Request Tid} {construct : List (Request Tid)}
    (returned : (s.newObject q construct).2 ≠ 0) :
    (s.newObject q construct).1.arena.blockIndexTable.length ≤ maxBlockNum := by
  unfold newObject at returned ⊢
  split_ifs at returned ⊢ with refused
  · exact absurd rfl returned
  · rw [makeSharedAndMove_arena]
    exact makeSharedAndMove_few returned

theorem lists_of_reach (h : (machine Tid blockSize).Reach Machine.free s) : s.Lists := by
  refine h.inv (P := Lists) ?_ fun s call s' lists step _ => ?_
  · rintro s rfl
    rfl
  · cases call with
    | allocate q =>
      cases step
      exact request_lists s.arena q lists
    | newObject q construct =>
      cases step
      exact lists.newObject q construct
    | makeSharedAndMove ptr =>
      cases step
      unfold Lists keep
      rw [makeSharedAndMove_arena]
      exact lists

/-- At the moment when an object is handed over it lists all blocks. -/
theorem handedOver_lists (h : (machine Tid blockSize).Reach Machine.free s) :
    (∀ ptr, (s.makeSharedAndMove ptr).2 ≠ 0 →
      s.arena.objectBlocks = s.arena.blockIndexTable) ∧
    ∀ q construct, (s.newObject q construct).2 ≠ 0 →
      (s.newObject q construct).1.arena.objectBlocks =
        (s.newObject q construct).1.arena.blockIndexTable := by
  have lists := lists_of_reach h
  refine ⟨fun ptr returned => ?_, fun q construct returned => ?_⟩
  · rw [lists, List.take_of_length_le (makeSharedAndMove_few returned)]
  · rw [lists.newObject q construct, List.take_of_length_le (newObject_few returned)]

/-- In every run the object lists all blocks of its arena after it has been handed over exactly
if there are not more of them than it has room for. -/
theorem recorded_iff_of_reach (h : (machine Tid blockSize).Reach Machine.free s) :
    s.Recorded ↔
      (s.handedOver ≠ [] → s.arena.blockIndexTable.length ≤ maxBlockNum) := by
  refine imp_congr_right fun _ => ?_
  rw [lists_of_reach h]
  exact List.take_eq_self_iff _

/-- An object and a second block. -/
def twoBlocks : List (ArenaCall Nat) :=
  [.newObject ⟨0, 100, 8, some ⟨5, 65536⟩, none, 0⟩ [],
    .allocate ⟨0, 4000, 8, some ⟨3, 69632⟩, none, 0⟩]

/-- The object lists both blocks. -/
theorem recorded_iff_of_reach_twoBlocks :
    ∃ s, (machine Nat 4096).run { arena := ShmArena.initialized Nat 4096 } twoBlocks = some s ∧
      s.handedOver = [65536] ∧ s.arena.blockIndexTable = [5, 3] ∧ s.Recorded := by
  have seen : ((machine Nat 4096).run { arena := ShmArena.initialized Nat 4096 } twoBlocks).map
      (fun s => (s.handedOver, s.arena.blockIndexTable)) = some ([65536], [5, 3]) := by
    decide +kernel
  obtain ⟨s, run, eq⟩ := Option.map_eq_some_iff.mp seen
  obtain ⟨handed, table⟩ := Prod.mk.inj eq
  refine ⟨s, run, handed, table, (recorded_iff_of_reach (.of_run (.start rfl) run)).mpr fun _ => ?_⟩
  rw [table]
  decide

/-- An object whose message grows by as many blocks as it can list. The arrays of pages fit
behind what is used of a page, so that every block is a page of the resource. -/
def growing : List (ArenaCall Nat) :=
  .newObject ⟨0, 100, 8, some ⟨0, 65536⟩, none, 0⟩ [] ::
    (List.range maxBlockNum).map fun i =>
      .allocate ⟨0, 3900, 8, some ⟨i + 1, 69632 + 4096 * i⟩, none, 0⟩

/-- The last block is not listed. -/
theorem block_not_recorded : ∃ s, (machine Nat 4096).Reach Machine.free s ∧
    s.handedOver = [65536] ∧ s.arena.blockIndexTable.length = 33 ∧
      0 ∉ (s.arena.resource 0).pages ∧ ¬s.Recorded := by
  have seen : ((machine Nat 4096).run { arena := ShmArena.initialized Nat 4096 } growing).map
      (fun s => (s.handedOver, s.arena.blockIndexTable.length, s.arena.objectBlocks.length,
        decide (0 ∈ (s.arena.resource 0).pages))) = some ([65536], 33, 32, false) := by
    decide +kernel
  obtain ⟨s, run, eq⟩ := Option.map_eq_some_iff.mp seen
  simp only [Prod.mk.injEq] at eq
  obtain ⟨handed, table, object, pages⟩ := eq
  refine ⟨s, .of_run (.start rfl) run, handed, table, of_decide_eq_false pages, fun recorded => ?_⟩
  rw [recorded (by simp [handed]), table] at object
  exact absurd object (by decide)

end ArenaRun

end Fuxi.Shm.Arena
