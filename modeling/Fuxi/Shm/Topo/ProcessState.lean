import Fuxi.Base.FlatSignalQueue
import Fuxi.Shm.Topo.TopoState

/-!
# `ProcessState`

The event queue of a process. An event carries the address of a shared object, and the
references that events hold are counted in the object.
-/

namespace Fuxi.Shm.Topo

open Lib Base

/-- `ProcessState`; an event is the address of its object. -/
structure ProcessState where
  pid : Int
  isOnline : Bool
  readerEventQueue : FlatSignalQueue Nat

/-- The reference counts of the shared objects by address, signed 32-bit numbers. -/
abbrev RefCounts := Nat → Int

/-- `ref_cnt.fetch_add(1)` on an object. -/
def RefCounts.add (c : RefCounts) (object : Nat) : RefCounts :=
  Function.update c object (i32 (c object + 1))

namespace ProcessState

/-- `Init` on a new state. -/
def initialized (pid : Int) (num : Nat) : ProcessState :=
  ⟨pid, true, FlatSignalQueue.initialized 0 num⟩

/-- `Push`: the reference is counted whether or not the queue takes the event. -/
def push (p : ProcessState) (c : RefCounts) (object fuel : Nat) :
    Option (ProcessState × RefCounts) :=
  (p.readerEventQueue.tryPush object fuel).map fun r =>
    ({ p with readerEventQueue := r.1 }, c.add object)

/-- `Pop`, or `none` if it waits. -/
def pop (p : ProcessState) : Option (ProcessState × Nat) :=
  (p.readerEventQueue.pop 0).map fun r => ({ p with readerEventQueue := r.1 }, r.2)

/-- The objects in the event queue. -/
def events (p : ProcessState) : List Nat := p.readerEventQueue.evQueue.contents

/-- The event queue works and has room for `num` events. -/
structure Ok (num : Nat) (p : ProcessState) : Prop where
  capacity : p.readerEventQueue.queueCapacity = num
  room : num ≤ p.readerEventQueue.evQueue.capacity
  holds : p.readerEventQueue.evQueue.Holds p.events

variable {num : Nat} {p : ProcessState}

theorem initialized_ok (pid : Int) (num : Nat) :
    (initialized pid num).Ok num ∧ (initialized pid num).events = [] := by
  have holds := BoundedQueue.reserveAndClear_holds 0 num
  have empty : (initialized pid num).events = [] := holds.contents_eq
  exact ⟨⟨rfl, le_bitCeil num, empty.symm ▸ holds⟩, empty⟩

/-- `Push` into a queue with room returns, if the counter of the queue shows the room. -/
theorem Ok.push (h : p.Ok num) (c : RefCounts) (object : Nat)
    (seen : p.readerEventQueue.roomSeen)
    (room : p.events.length < p.readerEventQueue.evQueue.capacity) :
    p.push c object 0 = none ∧ ∃ p', (∀ fuel, p.push c object (fuel + 1) = some (p', c.add object)) ∧
      p'.Ok num ∧ p'.pid = p.pid ∧ p'.events = p.events ++ [object] := by
  obtain ⟨ring, holds, cap, ret⟩ :=
    FlatSignalQueue.tryPush_room h.holds object seen room
  have none : p.readerEventQueue.tryPush object 0 = none := by
    rw [FlatSignalQueue.tryPush, if_pos seen]; rfl
  have events' : ring.contents = p.events ++ [object] := holds.contents_eq
  refine ⟨by rw [ProcessState.push, none]; rfl,
    ⟨p.pid, p.isOnline, { p.readerEventQueue with
      availableSize := i32 (p.readerEventQueue.availableSize + 1), evQueue := ring }⟩,
    fun fuel => by rw [ProcessState.push, ret]; rfl, ⟨h.capacity, cap ▸ h.room, ?_⟩, rfl, events'⟩
  simp only [events, events']
  exact holds

/-- `Pop` takes the oldest event. -/
theorem Ok.pop (h : p.Ok num) {p' : ProcessState} {object : Nat}
    (eq : p.pop = some (p', object)) :
    p'.Ok num ∧ p'.pid = p.pid ∧ p.events = object :: p'.events := by
  obtain ⟨r, hr, eq⟩ := Option.map_eq_some_iff.mp eq
  cases eq
  obtain ⟨deal, hd, rfl⟩ := Option.map_eq_some_iff.mp hr
  rw [BoundedQueue.pushOrPop_eq] at hd
  have holds := h.holds
  cases hx : p.events with
  | nil => rw [hx] at holds; rw [holds.tryDeal_pop_empty] at hd; cases hd
  | cons x xs =>
    rw [hx] at holds
    obtain ⟨ring, deal', holds', cap⟩ := holds.tryDeal_pop 0
    cases hd.symm.trans deal'
    have events' : ring.contents = xs := holds'.contents_eq
    refine ⟨⟨h.capacity, cap ▸ h.room, ?_⟩, rfl, ?_⟩
    · simp only [events, events']; exact holds'
    · simp only [events, events']

end ProcessState

end Fuxi.Shm.Topo
