import Mathlib.Logic.Function.Basic
import Fuxi.Lib.Machine

/-!
# A bounded queue for many threads

A call to put elements or to take some has two steps. It claims: a put reserves room, and a take
removes the oldest elements, whose room it still occupies. Then it finishes: a put appends all its
elements at once, and a take gives the room back. A call that finds no room or too few elements is
refused, and so is a call for none.
-/

namespace Fuxi.Lib

variable {Tid α : Type*}

/-- What a thread asks for. -/
inductive QueueOp (α : Type*)
  | put (items : List α)
  | take (n : Nat)
  deriving DecidableEq

/-- Where a thread is in its call. The answer lists the elements that have been put or taken;
there is none if the call was refused. -/
inductive QueueStage (α : Type*)
  | idle
  | asked (op : QueueOp α)
  | putting (items : List α)
  | taking (items : List α)
  | answered (answer : Option (List α))
  deriving DecidableEq

inductive QueueMove (α : Type*)
  | ask (op : QueueOp α)
  | claim
  | finish
  | refuse

/-- The elements from the oldest one on, and the room that is reserved for elements to come or
occupied by elements that are gone. -/
@[ext] structure SharedFifo (Tid α : Type*) where
  items : List α := []
  reserved : Nat := 0
  occupied : Nat := 0
  stage : Tid → QueueStage α := fun _ => .idle

namespace SharedFifo

/-- The room that is not free. -/
def used (q : SharedFifo Tid α) : Nat := q.occupied + q.items.length + q.reserved

variable [DecidableEq Tid]

def goto (q : SharedFifo Tid α) (t : Tid) (p : QueueStage α) : SharedFifo Tid α :=
  { q with stage := Function.update q.stage t p }

@[simp] theorem goto_stage (q : SharedFifo Tid α) (t : Tid) : q.goto t (q.stage t) = q := by
  rw [goto, Function.update_eq_self]

def claim (capacity : Nat) (q : SharedFifo Tid α) (t : Tid) :
    QueueOp α → Option (SharedFifo Tid α)
  | .put xs =>
    if xs.length = 0 ∨ capacity < q.used + xs.length then none
    else some { q.goto t (.putting xs) with reserved := q.reserved + xs.length }
  | .take n =>
    if n = 0 ∨ q.items.length < n then none
    else
      some
        { q.goto t (.taking (q.items.take n)) with
          items := q.items.drop n
          occupied := q.occupied + n }

/-- The steps of a thread. A call is refused exactly if it cannot claim. -/
def step (capacity : Nat) (q : SharedFifo Tid α) :
    Tid × QueueMove α → Option (SharedFifo Tid α)
  | (t, .ask op) =>
    match q.stage t with
    | .idle | .answered _ => some (q.goto t (.asked op))
    | .asked _ | .putting _ | .taking _ => none
  | (t, .claim) =>
    match q.stage t with
    | .asked op => q.claim capacity t op
    | .idle | .answered _ | .putting _ | .taking _ => none
  | (t, .finish) =>
    match q.stage t with
    | .putting xs =>
      some
        { q.goto t (.answered (some xs)) with
          items := q.items ++ xs
          reserved := q.reserved - xs.length }
    | .taking xs =>
      some { q.goto t (.answered (some xs)) with occupied := q.occupied - xs.length }
    | .idle | .answered _ | .asked _ => none
  | (t, .refuse) =>
    match q.stage t with
    | .asked op =>
      if (q.claim capacity t op).isNone then some (q.goto t (.answered none)) else none
    | .idle | .answered _ | .putting _ | .taking _ => none

/-- Any number of threads on a queue that is empty at first. -/
def machine (Tid α : Type*) [DecidableEq Tid] (capacity : Nat) :
    Machine (SharedFifo Tid α) (Tid × QueueMove α) where
  start q := q = {}
  step := step capacity

end SharedFifo

end Fuxi.Lib
