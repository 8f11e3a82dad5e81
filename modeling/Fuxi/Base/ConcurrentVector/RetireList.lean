import Mathlib.Data.Nat.Bitwise
import Mathlib.Logic.Function.Basic
import Fuxi.Lib.Machine
import Fuxi.Lib.Word

/-!
# `RetireList`

Retired elements wait in a linked list until they are old enough. The word of the head holds the
address of the first node and 16 bits of the time, in units of 64 seconds, that the thread that
pushed the node has read from the clock. Who finds that time more than one unit ago takes the
whole list and deletes its elements. One step of a thread is one access to the head, one reading
of the clock or the deletion of one element.
-/

namespace Fuxi.Base

open Lib

variable {Tid T : Type*}

namespace RetireList

/-- One unit of time, in nanoseconds. -/
def timeUnit : Nat := 64000000000

/-- `tv_sec >> 6`, before it is cut off. -/
def units (clock : Nat) : Nat := (clock / 1000000000) >>> 6

def getCurrentTimestamp (clock : Nat) : Nat := u16 (units clock)

def getNode (head : Nat) : Nat := head &&& 0x0000FFFFFFFFFFFF

def getTimestamp (head : Nat) : Nat := u16 (head >>> 48)

def makeHead (node timestamp : Nat) : Nat := u64 (timestamp <<< 48) ||| node

/-- The difference is cut off to 16 bits. -/
def expire (head currentTimestamp : Nat) : Bool :=
  1 < (currentTimestamp + 65536 - getTimestamp head) % 65536

/-- `Node`. `retired` is when the element was passed to `retire`. -/
structure Node (T : Type*) where
  data : T
  next : Nat
  retired : Nat

/-- Where a thread is in `retire`, in `gc` or in the `delete_list` of either, with its locals. The
local `timestamp` is `u16 reading`. -/
inductive Phase
  | idle
  | retireLoad (node : Nat)
  | retireClock (node head : Nat)
  | retireStrong (node head reading : Nat)
  | retireWeak (node head reading : Nat)
  | gcLoad
  | gcClock (head : Nat)
  | gcStrong (head reading : Nat)
  | deleteList (node : Nat)

/-- An element that has been deleted, when it was passed to `retire` and when it was deleted. -/
structure Deletion (T : Type*) where
  data : T
  retired : Nat
  time : Nat

/-- The list and its threads. `clock` is `CLOCK_MONOTONIC_RAW` in nanoseconds, and `heap` maps the
addresses of the nodes that exist. Two histories of the list at the head: `reading` is what its
timestamp was read as, before it was cut off, and `latest` when the last of its elements was
passed to `retire`. -/
structure State (Tid T : Type*) where
  clock : Nat
  head : Nat := 0
  heap : Nat → Option (Node T) := fun _ => none
  phase : Tid → Phase := fun _ => .idle
  reading : Nat := 0
  latest : Nat := 0
  deleted : List (Deletion T) := []

/-- Time passes; a thread calls `retire`, where `new` returns an address, or `gc`; it goes on, where
a weak compare-exchange may fail spuriously. -/
inductive Move (T : Type*)
  | pass (time : Nat)
  | retire (data : T) (address : Nat)
  | gc
  | next (spurious : Bool)

namespace State

/-- When the element of a node was passed to `retire`. -/
def retired (s : State Tid T) (node : Nat) : Nat := (s.heap node).elim 0 Node.retired

/-- `node->next = next`. -/
def link (s : State Tid T) (node next : Nat) : State Tid T :=
  { s with heap := Function.update s.heap node ((s.heap node).map fun n => { n with next }) }

variable [DecidableEq Tid]

def goto (s : State Tid T) (t : Tid) (p : Phase) : State Tid T :=
  { s with phase := Function.update s.phase t p }

/-- `new Node`, with the element. Addresses have 48 bits. -/
def create (s : State Tid T) (t : Tid) (data : T) (address : Nat) : Option (State Tid T) :=
  if s.heap address = none ∧ 0 < address ∧ address < 2 ^ 48 then
    some ({ s with heap := Function.update s.heap address (some ⟨data, 0, s.clock⟩) }.goto t
      (.retireLoad address))
  else none

/-- The strong compare-exchange of `retire`: the new node alone becomes the list. -/
def retireStrong (s : State Tid T) (t : Tid) (node head reading : Nat) : State Tid T :=
  if s.head = head then
    { s.link node 0 with
      head := makeHead node (u16 reading)
      reading := reading
      latest := s.retired node }.goto t (.deleteList (getNode head))
  else (s.link node 0).goto t (.retireWeak node s.head reading)

/-- The weak compare-exchange of `retire`: the new node comes in front of the list. -/
def retireWeak (s : State Tid T) (t : Tid) (node head reading : Nat) (spurious : Bool) :
    State Tid T :=
  if s.head = head ∧ spurious = false then
    { s.link node (getNode head) with
      head := makeHead node (u16 reading)
      reading := reading
      latest := if getNode head = 0 then s.retired node
        else max s.latest (s.retired node) }.goto t .idle
  else (s.link node (getNode head)).goto t (.retireWeak node s.head reading)

/-- The compare-exchange of `gc`. -/
def gcStrong (s : State Tid T) (t : Tid) (head : Nat) : State Tid T :=
  if s.head = head then { s with head := 0 }.goto t (.deleteList (getNode head))
  else s.goto t .idle

/-- The loop of `delete_list`. A node that does not exist cannot be read. -/
def deleteList (s : State Tid T) (t : Tid) (node : Nat) : Option (State Tid T) :=
  if node = 0 then some (s.goto t .idle)
  else
    (s.heap node).map fun n =>
      { s with
        heap := Function.update s.heap node none
        deleted := ⟨n.data, n.retired, s.clock⟩ :: s.deleted }.goto t (.deleteList n.next)

/-- A thread goes on. -/
def next (s : State Tid T) (t : Tid) (spurious : Bool) : Option (State Tid T) :=
  match s.phase t with
  | .idle => none
  | .retireLoad node => some (s.goto t (.retireClock node s.head))
  | .retireClock node head =>
    if expire head (getCurrentTimestamp s.clock) then
      some (s.goto t (.retireStrong node head (units s.clock)))
    else some (s.goto t (.retireWeak node head (units s.clock)))
  | .retireStrong node head reading => some (s.retireStrong t node head reading)
  | .retireWeak node head reading => some (s.retireWeak t node head reading spurious)
  | .gcLoad => some (s.goto t (.gcClock s.head))
  | .gcClock head =>
    if expire head (getCurrentTimestamp s.clock) then
      some (s.goto t (.gcStrong head (units s.clock)))
    else some (s.goto t .idle)
  | .gcStrong head _ => some (s.gcStrong t head)
  | .deleteList node => s.deleteList t node

def step (s : State Tid T) : Tid × Move T → Option (State Tid T)
  | (_, .pass time) => some { s with clock := s.clock + time }
  | (t, .retire data address) =>
    match s.phase t with
    | .idle => s.create t data address
    | _ => none
  | (t, .gc) =>
    match s.phase t with
    | .idle => some (s.goto t .gcLoad)
    | _ => none
  | (t, .next spurious) => s.next t spurious

end State

/-- The interleavings of any number of threads that use one list. -/
def machine (Tid T : Type*) [DecidableEq Tid] : Machine (State Tid T) (Tid × Move T) where
  start s := ∃ clock, s = { clock }
  step := State.step

/-! ## The word of the head -/

theorem makeHead_eq {node : Nat} (lt : node < 2 ^ 48) (reading : Nat) :
    makeHead node (u16 reading) = u16 reading * 2 ^ 48 + node := by
  have small : u16 reading < 65536 := Nat.mod_lt _ (by decide)
  have word : u64 (u16 reading <<< 48) = u16 reading <<< 48 := by
    rw [Nat.shiftLeft_eq]
    exact u64_of_lt (by omega)
  rw [makeHead, word, ← Nat.shiftLeft_add_eq_or_of_lt lt, Nat.shiftLeft_eq]

theorem getNode_eq (head : Nat) : getNode head = head % 2 ^ 48 :=
  Nat.and_two_pow_sub_one_eq_mod head 48

@[simp] theorem getNode_zero : getNode 0 = 0 := rfl

theorem getNode_makeHead {node : Nat} (lt : node < 2 ^ 48) (reading : Nat) :
    getNode (makeHead node (u16 reading)) = node := by
  rw [getNode_eq, makeHead_eq lt]
  omega

theorem getTimestamp_makeHead {node : Nat} (lt : node < 2 ^ 48) (reading : Nat) :
    getTimestamp (makeHead node (u16 reading)) = u16 reading := by
  rw [getTimestamp, makeHead_eq lt, Nat.shiftRight_eq_div_pow]
  unfold u16
  omega

/-! ## The clock -/

theorem units_mul_le (clock : Nat) : units clock * timeUnit ≤ clock := by
  rw [units, Nat.shiftRight_eq_div_pow, timeUnit]
  omega

theorem lt_units_mul (clock : Nat) : clock < (units clock + 1) * timeUnit := by
  rw [units, Nat.shiftRight_eq_div_pow, timeUnit]
  omega

/-- A head that has expired for a later reading is at least two units older. -/
theorem expire_makeHead {node : Nat} (lt : node < 2 ^ 48) {reading current : Nat}
    (le : reading ≤ current) (h : expire (makeHead node (u16 reading)) (u16 current) = true) :
    reading + 2 ≤ current := by
  rw [expire, getTimestamp_makeHead lt, decide_eq_true_eq] at h
  unfold u16 at h
  omega

end RetireList

end Fuxi.Base
