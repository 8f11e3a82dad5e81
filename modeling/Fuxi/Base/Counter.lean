import Mathlib.Data.BitVec
import Fuxi.Base.ThreadLocal
import Fuxi.Lib.Machine

/-!
# `ConcurrentAdder`

A counter adds to the value of the calling thread in a `CompactEnumerableThreadLocal`, and sums
up the values of all threads when it is read. The calls of a run come from any threads, one
after the other.
-/

namespace Fuxi.Base.ConcurrentAdder

open Lib

variable {Tid Obj : Type*}

/-- All counters; a `ssize_t` is a word. -/
abbrev State (Tid Obj : Type*) := CompactEnumerableThreadLocal.State Tid Obj (BitVec 64)

/-- The functions of the class, and the end of a thread. -/
inductive Move (Obj : Type*)
  | construct (o : Obj)
  | moveConstruct (o other : Obj)
  | moveAssign (o other : Obj)
  | destroy (o : Obj)
  | add (o : Obj) (value : BitVec 64)
  | reset (o : Obj)
  | exit

namespace State

def value (s : State Tid Obj) (o : Obj) : BitVec 64 := (s.each o).sum

def reset (s : State Tid Obj) (o : Obj) : State Tid Obj := s.assignEach o fun _ => 0

variable [DecidableEq Tid] [DecidableEq Obj]

/-- `operator<<`. -/
def add (s : State Tid Obj) (t : Tid) (o : Obj) (value : BitVec 64) : State Tid Obj :=
  s.setLocal t o (· + value)

/-- An instance is constructed where none is alive, and used and destroyed while it is alive. -/
def step (n : Nat) (s : State Tid Obj) : Tid × Move Obj → Option (State Tid Obj)
  | (_, .construct o) => if o ∉ s.alive then some (s.construct n o) else none
  | (_, .moveConstruct o other) =>
    if o ∉ s.alive ∧ other ∈ s.alive then some (s.moveConstruct n o other) else none
  | (_, .moveAssign o other) =>
    if o ∈ s.alive ∧ other ∈ s.alive then some (s.moveAssign o other) else none
  | (_, .destroy o) => if o ∈ s.alive then some (s.destroy o) else none
  | (t, .add o value) => if o ∈ s.alive then some (s.add t o value) else none
  | (_, .reset o) => if o ∈ s.alive then some (s.reset o) else none
  | (t, .exit) => some { s with threadIds := s.threadIds.exit t }

end State

/-- The runs of any number of counters; `n` is `NUM_PER_CACHELINE`. -/
def machine (Tid Obj : Type*) [DecidableEq Tid] [DecidableEq Obj] (n : Nat) :
    Machine (State Tid Obj) (Tid × Move Obj) where
  start s := ∃ blank blank' threadId object, s = .unused blank blank' threadId object
  step := State.step n

/-- A start of a run, with cache lines of 64 bytes. -/
def State.empty (Tid Obj : Type*) : State Tid Obj :=
  .unused (fun _ => 0) (fun _ => 0) (fun _ => 0) fun _ => .ofId 512 0

/-- Fewer than `2 ^ 15` thread ids are in use, and fewer than `2 ^ 32` counters are alive. -/
def Bounded (_ : State Tid Obj) (_ : Tid × Move Obj) (s : State Tid Obj) : Prop :=
  s.threadIds.threadEnd < 2 ^ 15 ∧ s.alive.length < 2 ^ 32

instance (s : State Tid Obj) (move : Tid × Move Obj) (s' : State Tid Obj) :
    Decidable (Bounded s move s') :=
  inferInstanceAs (Decidable (_ ∧ _))

/-! ## What the counters stand for -/

/-- Each counter has a sum. -/
abbrev Sums (Obj : Type*) := Obj → Int

/-- What a call does to the sums. -/
def Sums.after [DecidableEq Obj] (sums : Sums Obj) : Move Obj → Sums Obj
  | .construct o => Function.update sums o 0
  | .moveConstruct o other => Function.update sums o 0 ∘ Equiv.swap o other
  | .moveAssign o other => sums ∘ Equiv.swap o other
  | .destroy _ => sums
  | .add o value => Function.update sums o (sums o + value.toInt)
  | .reset o => Function.update sums o 0
  | .exit => sums

/-- The sums after a run. -/
def Sums.run [DecidableEq Obj] (moves : List (Tid × Move Obj)) : Sums Obj :=
  moves.foldl (fun sums move => sums.after move.2) fun _ => 0

end Fuxi.Base.ConcurrentAdder
