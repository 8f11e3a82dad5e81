import Fuxi.Base.BoundedQueue
import Fuxi.Lib.Machine

/-!
# `ConcurrentBoundedQueue` under interleaving

Any number of threads run `push`, `pop`, `try_push`, `try_pop` and their batch variants
with `CONCURRENT = true`. One step of a thread is one atomic access to an index or to a
futex word, one system call on a futex, or one callback; the steps of different threads
interleave in any order. Push and pop differ only in their `Side`.
-/

namespace Fuxi.Base.BoundedQueue

open Lib

variable {α Tid : Type*}

/-- The arguments of one call. `batch` is the `num` of a batch variant, `trying` marks
the non-blocking variants, `wait` and `wake` are `USE_FUTEX_WAIT` and `USE_FUTEX_WAKE`,
and `item i` is what a push writes at its `i`-th position. -/
structure Call (α : Type*) where
  side : Side
  batch : Option Nat
  trying : Bool
  wait : Bool
  wake : Bool
  item : Nat → α

/-- The number of tickets that the call asks for. -/
def Call.num (c : Call α) : Nat := c.batch.getD 1

/-- A call that works on the tickets `[index, index + num)`, which lie in one round. The
next `rest` tickets are the second part of a batch that is split at the end of the ring,
and `moved` items went before this part. -/
structure Job (α : Type*) where
  call : Call α
  index : Nat
  num : Nat
  rest : Nat
  moved : Nat

/-- What a call does that waits for a slot: the first load of the futex word, the slow
path that marks the word and sleeps, or the spinning path. -/
inductive Wait
  | load
  | mark (word : Nat)
  | sleep (word : Nat)
  | asleep (word : Nat)
  | reload
  | spin
  deriving DecidableEq

/-- What a thread does next. The second argument counts the slots of the part that the
loop has passed. -/
inductive Pc (α : Type*)
  | idle
  | fetchAdd (c : Call α)
  | wait (j : Job α) (i : Nat) (w : Wait)
  | loadIndex (c : Call α)
  | tryCheck (j : Job α) (i : Nat)
  | tryReload (j : Job α)
  | tryClaim (j : Job α)
  | callback (j : Job α)
  | publish (j : Job α) (i : Nat)
  | wakeLoad (j : Job α) (i : Nat)
  | wakeClear (j : Job α) (i word : Nat)
  | wakeAll (j : Job α) (i : Nat)
  | returned (c : Call α) (moved : Nat)

/-- What has happened so far, which no step of the code reads: the claims `(index, num)`
of each side (newest first), the tickets whose callback has run with the value it wrote
or received, and for each slot how many operations have published it. -/
structure History (α : Type*) where
  claims : Side → List (Nat × Nat) := fun _ => []
  ran : Side → List (Nat × α) := fun _ => []
  ver : Nat → Nat := fun _ => 0

namespace History

variable (h : History α)

/-- The tickets `[index, index + num)` are claimed. -/
def claim (σ : Side) (index num : Nat) : History α :=
  { h with claims := Function.update h.claims σ ((index, num) :: h.claims σ) }

/-- The callbacks of some tickets have run. -/
def run (σ : Side) (rs : List (Nat × α)) : History α :=
  { h with ran := Function.update h.ran σ (rs ++ h.ran σ) }

/-- A slot has been published. -/
def publish (slot : Nat) : History α :=
  { h with ver := Function.update h.ver slot (h.ver slot + 1) }

variable (σ : Side) (index num slot : Nat) (rs : List (Nat × α))

@[simp] theorem claim_ran : (h.claim σ index num).ran = h.ran := rfl
@[simp] theorem claim_ver : (h.claim σ index num).ver = h.ver := rfl
@[simp] theorem run_claims : (h.run σ rs).claims = h.claims := rfl
@[simp] theorem run_ver : (h.run σ rs).ver = h.ver := rfl
@[simp] theorem publish_claims : (h.publish slot).claims = h.claims := rfl
@[simp] theorem publish_ran : (h.publish slot).ran = h.ran := rfl

theorem mem_run {τ : Side} {r : Nat × α} :
    r ∈ (h.run σ rs).ran τ ↔ τ = σ ∧ r ∈ rs ∨ r ∈ h.ran τ := by
  by_cases e : τ = σ
  · subst e; simp [run]
  · simp [run, e]

end History

structure State (Tid α : Type*) where
  q : BoundedQueue α
  pc : Tid → Pc α
  hist : History α

/-- A thread enters a call or goes on; a compare-exchange of `try_deal`, which is weak,
fails for no reason; a sleeper wakes up for no reason. -/
inductive Move (α : Type*)
  | call (c : Call α)
  | step
  | weakFail
  | spurious

/-- How a batch that starts at `index` is split at the end of the ring; a single call is
never split. -/
def Call.job (q : BoundedQueue α) (c : Call α) (index : Nat) : Job α :=
  let next := q.nextRoundBeginIndex index
  if index + c.num ≤ next then ⟨c, index, c.num, 0, 0⟩
  else ⟨c, index, next - index, index + c.num - next, 0⟩

namespace Job

variable (j : Job α)

/-- The first slot of the part. -/
def slot (q : BoundedQueue α) : Nat := q.slotIndex j.index

def expected (q : BoundedQueue α) : Nat := q.expectedVersion j.call.side j.index

/-- A blocking call starts its part: it waits for the first slot. -/
def startWait : Pc α := if j.num = 0 then .callback j else .wait j 0 .load

/-- A non-blocking call starts its part. -/
def startTry : Pc α := if j.num = 0 then .returned j.call j.moved else .tryCheck j 0

/-- The slot `i` is ready for a blocking call. -/
def ready (i : Nat) : Pc α := if i + 1 < j.num then .wait j (i + 1) .load else .callback j

/-- The second part of a batch. -/
def second : Job α := ⟨j.call, j.index + j.num, j.rest, 0, j.moved + j.num⟩

/-- The part is done: the call goes on with the second part or returns. -/
def finish : Pc α :=
  if j.rest = 0 then .returned j.call (j.moved + j.num)
  else if j.call.trying then j.second.startTry
  else j.second.startWait

/-- The loop over the wake-ups goes on after slot `i`. -/
def nextWake (i : Nat) : Pc α := if i + 1 < j.num then .wakeLoad j (i + 1) else j.finish

/-- The top of the loop in `block_until_reach_expected_version_slow`: the first waiter
marks the word, and the others sleep at once. -/
def block (i word : Nat) : Pc α :=
  .wait j i (if word ≤ 65535 then .mark word else .sleep word)

/-- What the callback of a pop receives and what the callback of a push writes. -/
def results (q : BoundedQueue α) : List (Nat × α) :=
  (List.range j.num).map fun i =>
    (j.index + i,
      match j.call.side with
      | .prod => j.call.item (j.moved + i)
      | .cons => q.value (j.slot q + i))

theorem mem_results (q : BoundedQueue α) {r : Nat × α} :
    r ∈ j.results q ↔ ∃ i < j.num, r = (j.index + i,
      if j.call.side = .prod then j.call.item (j.moved + i) else q.value (j.slot q + i)) := by
  rw [results, List.mem_map]
  cases j.call.side with
  | prod => simp only [List.mem_range, if_true, eq_comm (a := r)]
  | cons => simp only [List.mem_range, reduceCtorEq, if_false, eq_comm (a := r)]

theorem results_keys (q : BoundedQueue α) :
    (j.results q).map Prod.fst = (List.range j.num).map (j.index + ·) := by
  simp [results, Function.comp_def]

/-- The slots after the callback. -/
def written (q : BoundedQueue α) : Nat → α := fun s =>
  if j.call.side = .prod ∧ j.slot q ≤ s ∧ s < j.slot q + j.num then
    j.call.item (j.moved + (s - j.slot q))
  else q.value s

end Job

/-- `wake_all` on a slot. -/
def Pc.awaken (q : BoundedQueue α) (slot : Nat) : Pc α → Pc α
  | .wait j i (.asleep word) =>
    if j.slot q + i = slot then .wait j i .reload else .wait j i (.asleep word)
  | p => p

/-- Store a futex word. -/
def setFutex (q : BoundedQueue α) (slot word : Nat) : BoundedQueue α :=
  { q with futex := Function.update q.futex slot word }

/-- Write into slots. -/
def setValue (q : BoundedQueue α) (f : Nat → α) : BoundedQueue α := { q with value := f }

section SetValue

variable (q : BoundedQueue α) (f : Nat → α)

@[simp] theorem setValue_capacity : (setValue q f).capacity = q.capacity := rfl
@[simp] theorem setValue_value : (setValue q f).value = f := rfl
@[simp] theorem setValue_version : (setValue q f).version = q.version := rfl

@[simp] theorem setValue_nextIndex : (setValue q f).nextIndex = q.nextIndex := by
  funext σ; cases σ <;> rfl

end SetValue

namespace State

variable [DecidableEq Tid]

def goto (s : State Tid α) (t : Tid) (p : Pc α) : State Tid α :=
  { s with pc := Function.update s.pc t p }

/-- The next step of a thread that waits for slot `i` of its part. -/
def advanceWait (s : State Tid α) (t : Tid) (j : Job α) (i : Nat) : Wait → Option (State Tid α)
  | .load =>
    let word := s.q.futex (j.slot s.q + i)
    if u16 word = j.expected s.q then some (s.goto t (j.ready i))
    else if j.call.wait then some (s.goto t (j.block i word))
    else some (s.goto t (.wait j i .spin))
  | .mark word =>
    let actual := s.q.futex (j.slot s.q + i)
    if actual = word then
      some { s.goto t (.wait j i (.sleep (word + 65536))) with
        q := setFutex s.q (j.slot s.q + i) (word + 65536) }
    else if u16 actual = j.expected s.q then some (s.goto t (j.ready i))
    else some (s.goto t (j.block i actual))
  | .sleep word =>
    if s.q.futex (j.slot s.q + i) = word then some (s.goto t (.wait j i (.asleep word)))
    else some (s.goto t (.wait j i .reload))
  | .asleep _ => none
  | .reload =>
    let word := s.q.futex (j.slot s.q + i)
    if u16 word = j.expected s.q then some (s.goto t (j.ready i))
    else some (s.goto t (j.block i word))
  | .spin =>
    if u16 (s.q.futex (j.slot s.q + i)) = j.expected s.q then some (s.goto t (j.ready i))
    else some (s.goto t (.wait j i .spin))

/-- The next step of a thread. -/
def advance (s : State Tid α) (t : Tid) : Option (State Tid α) :=
  match s.pc t with
  | .idle => none
  | .fetchAdd c =>
    let index := s.q.nextIndex c.side
    some
      { q := s.q.setNextIndex c.side (index + c.num)
        pc := Function.update s.pc t (c.job s.q index).startWait
        hist := s.hist.claim c.side index c.num }
  | .wait j i w => s.advanceWait t j i w
  | .loadIndex c => some (s.goto t (c.job s.q (s.q.nextIndex c.side)).startTry)
  | .tryCheck j i =>
    if j.expected s.q ≠ s.q.version (j.slot s.q + i) then
      if j.call.batch = none then some (s.goto t (.tryReload j))
      else if i = 0 then some (s.goto t (.returned j.call j.moved))
      else some (s.goto t (.tryClaim { j with num := i, rest := 0 }))
    else if i + 1 < j.num then some (s.goto t (.tryCheck j (i + 1)))
    else some (s.goto t (.tryClaim j))
  | .tryReload j =>
    let current := s.q.nextIndex j.call.side
    if current = j.index then some (s.goto t (.returned j.call 0))
    else some (s.goto t (.tryCheck { j with index := current } 0))
  | .tryClaim j =>
    let current := s.q.nextIndex j.call.side
    if current = j.index then
      some
        { q := s.q.setNextIndex j.call.side (j.index + j.num)
          pc := Function.update s.pc t (.callback j)
          hist := s.hist.claim j.call.side j.index j.num }
    else if j.call.batch = none then
      some (s.goto t (.tryCheck { j with index := current } 0))
    else some (s.goto t (.returned j.call j.moved))
  | .callback j =>
    some
      { q := setValue s.q (j.written s.q)
        pc := Function.update s.pc t (if j.num = 0 then j.finish else .publish j 0)
        hist := s.hist.run j.call.side (j.results s.q) }
  | .publish j i =>
    let slot := j.slot s.q + i
    let hist := s.hist.publish slot
    if j.call.batch = none ∧ j.call.wake then
      some
        { q := s.q.exchangeVersion slot (j.expected s.q + 1)
          pc := Function.update s.pc t
            (if s.q.futex slot ≤ 65535 then j.finish else .wakeAll j i)
          hist := hist }
    else
      some
        { q := s.q.setVersion slot (j.expected s.q + 1)
          pc := Function.update s.pc t
            (if i + 1 < j.num then .publish j (i + 1)
            else if j.call.wake then .wakeLoad j 0 else j.finish)
          hist := hist }
  | .wakeLoad j i =>
    let word := s.q.futex (j.slot s.q + i)
    if word ≤ 65535 then some (s.goto t (j.nextWake i))
    else if u16 word ≠ u16 (j.expected s.q + 1) then some (s.goto t (j.nextWake i))
    else some (s.goto t (.wakeClear j i word))
  | .wakeClear j i word =>
    if s.q.futex (j.slot s.q + i) = word then
      some { s.goto t (.wakeAll j i) with q := setFutex s.q (j.slot s.q + i) (u16 word) }
    else some (s.goto t (j.nextWake i))
  | .wakeAll j i =>
    some
      { s with
        pc := Function.update (fun u => (s.pc u).awaken s.q (j.slot s.q + i)) t (j.nextWake i) }
  | .returned _ _ => none

/-- A thread that is in no call enters one. -/
def enter (s : State Tid α) (t : Tid) (c : Call α) : Option (State Tid α) :=
  match s.pc t with
  | .idle | .returned _ _ => some (s.goto t (if c.trying then .loadIndex c else .fetchAdd c))
  | _ => none

def step (s : State Tid α) : Tid × Move α → Option (State Tid α)
  | (t, .call c) => s.enter t c
  | (t, .step) => s.advance t
  | (t, .weakFail) =>
    match s.pc t with
    | .tryClaim j =>
      if j.call.batch = none then
        some (s.goto t (.tryCheck { j with index := s.q.nextIndex j.call.side } 0))
      else none
    | _ => none
  | (t, .spurious) =>
    match s.pc t with
    | .wait j i (.asleep _) => some (s.goto t (.wait j i .reload))
    | _ => none

end State

/-- No call is running on the queue that `reserve_and_clear` has prepared. -/
def fresh (Tid : Type*) (zero : α) (minCapacity : Nat) : State Tid α where
  q := reserveAndClear zero minCapacity
  pc := fun _ => .idle
  hist := {}

/-- The interleavings of any number of threads on one queue. -/
def machine (Tid : Type*) [DecidableEq Tid] (zero : α) (minCapacity : Nat) :
    Machine (State Tid α) (Tid × Move α) where
  start s := s = fresh Tid zero minCapacity
  step := State.step

end Fuxi.Base.BoundedQueue
