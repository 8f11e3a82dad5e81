import Fuxi.Lib.Machine
import Fuxi.Shm.Topo.ProcessState

/-!
# References in events

`Push` counts the reference of its event before it knows whether the queue takes the event, and
it neither looks at the answer of the queue nor returns it. Every event that is refused leaves a
counted reference that nobody holds.
-/

namespace Fuxi.Shm.Topo

open Lib Base

/-- `ref_cnt.fetch_sub(1)` on an object. -/
def RefCounts.sub (c : RefCounts) (object : Nat) : RefCounts :=
  Function.update c object (i32 (c object - 1))

namespace ProcessState

/-- `Push` with its return value. -/
def pushReturning (p : ProcessState) (c : RefCounts) (object fuel : Nat) :
    Option ((ProcessState × RefCounts) × Int) :=
  (p.push c object fuel).map fun r => (r, 0)

/-- `Push` enqueues one event and counts its reference, or it does neither and says so. -/
def LeavesNoTrace (p : ProcessState) (c : RefCounts) (object : Nat) : Prop :=
  ∃ fuel p' c' result, p.pushReturning c object fuel = some ((p', c'), result) ∧
    (p'.events = p.events ++ [object] ∧ c' = c.add object ∧ result = 0 ∨
      p'.events = p.events ∧ c' = c ∧ result ≠ 0)

/-- The counter of the event queue shows room, and its ring has some. -/
def Accepts (p : ProcessState) : Prop :=
  p.readerEventQueue.roomSeen ∧ p.events.length < p.readerEventQueue.evQueue.capacity

instance (p : ProcessState) : Decidable p.Accepts := inferInstanceAs (Decidable (_ ∧ _))

variable {num : Nat} {p : ProcessState}

/-- `Push` into a queue whose counter shows no room counts the reference all the same. -/
theorem Ok.push_refused (h : p.Ok num) (c : RefCounts) (object : Nat)
    (full : ¬p.readerEventQueue.roomSeen) : ∃ p', (∀ fuel, p.push c object fuel =
      some (p', c.add object)) ∧ p'.Ok num ∧ p'.events = p.events := by
  refine ⟨{ p with readerEventQueue := { p.readerEventQueue with
    availableSize := i32 (i32 (p.readerEventQueue.availableSize + 1) - 1) } }, fun fuel => ?_,
    ⟨h.capacity, h.room, h.holds⟩, rfl⟩
  rw [ProcessState.push, FlatSignalQueue.tryPush_refused object full]
  rfl

/-- `Push` never returns when the counter shows room in a ring that is full. -/
theorem Ok.push_stuck (h : p.Ok num) (c : RefCounts) (object fuel : Nat)
    (seen : p.readerEventQueue.roomSeen)
    (full : ¬p.events.length < p.readerEventQueue.evQueue.capacity) :
    p.push c object fuel = none := by
  rw [ProcessState.push, FlatSignalQueue.tryPush_stuck h.holds object seen full]
  rfl

/-- What a `Push` that returns has done. -/
theorem Ok.push_cases (h : p.Ok num) {c c' : RefCounts} {object fuel : Nat} {p' : ProcessState}
    (eq : p.push c object fuel = some (p', c')) : p'.Ok num ∧ c' = c.add object ∧
      p'.events = if p.Accepts then p.events ++ [object] else p.events := by
  by_cases seen : p.readerEventQueue.roomSeen
  · by_cases room : p.events.length < p.readerEventQueue.evQueue.capacity
    · obtain ⟨stuck, p₁, ret, ok, -, events⟩ := h.push c object seen room
      cases fuel with
      | zero => cases stuck.symm.trans eq
      | succ fuel =>
        cases (ret fuel).symm.trans eq
        exact ⟨ok, rfl, events.trans (if_pos ⟨seen, room⟩).symm⟩
    · cases (h.push_stuck c object fuel seen room).symm.trans eq
  · obtain ⟨p₁, ret, ok, events⟩ := h.push_refused c object seen
    cases (ret fuel).symm.trans eq
    exact ⟨ok, rfl, events.trans (if_neg fun accepts => seen accepts.1).symm⟩

/-- `Push` leaves no trace of a failure only because it does not fail. -/
theorem Ok.leavesNoTrace_iff (h : p.Ok num) (c : RefCounts) (object : Nat) :
    p.LeavesNoTrace c object ↔ p.Accepts := by
  constructor
  · rintro ⟨fuel, p', c', result, eq, outcome⟩
    obtain ⟨r, push, eq⟩ := Option.map_eq_some_iff.mp eq
    cases eq
    obtain ⟨-, -, events⟩ := h.push_cases push
    obtain ⟨enqueued, -, -⟩ | ⟨-, -, failed⟩ := outcome
    · by_contra refused
      rw [if_neg refused, enqueued] at events
      simp at events
    · exact (failed rfl).elim
  · rintro ⟨seen, room⟩
    obtain ⟨-, p', ret, -, -, events⟩ := h.push c object seen room
    exact ⟨1, p', c.add object, 0, by rw [pushReturning, ret 0]; rfl,
      Or.inl ⟨events, rfl, rfl⟩⟩

end ProcessState

/-! ## Runs -/

/-- What happens to the event queue of a process and to the references of objects: `hold` and
`drop` are references that come and go outside of the queue, in any process. -/
inductive ReferenceOp
  | push (object fuel : Nat)
  | pop
  | hold (object : Nat)
  | drop (object : Nat)

/-- A process and the counts of the objects, with the references held outside of its queue and
the pushes that its queue has refused. -/
structure ReferenceRun where
  process : ProcessState
  refCnt : RefCounts
  held : Nat → Nat
  refused : Nat → Nat := fun _ => 0

namespace ReferenceRun

/-- One call that returns. `Pop` hands the reference of the event to its caller. -/
def step (s : ReferenceRun) : ReferenceOp → Option ReferenceRun
  | .push object fuel =>
    (s.process.push s.refCnt object fuel).map fun r =>
      { s with
        process := r.1
        refCnt := r.2
        refused :=
          if s.process.Accepts then s.refused
          else Function.update s.refused object (s.refused object + 1) }
  | .pop =>
    s.process.pop.map fun r =>
      { s with process := r.1, held := Function.update s.held r.2 (s.held r.2 + 1) }
  | .hold object =>
    some { s with
      refCnt := s.refCnt.add object
      held := Function.update s.held object (s.held object + 1) }
  | .drop object =>
    if s.held object = 0 then none
    else
      some { s with
        refCnt := s.refCnt.sub object
        held := Function.update s.held object (s.held object - 1) }

/-- How many references to an object there are. -/
def references (s : ReferenceRun) (object : Nat) : Nat :=
  s.process.events.count object + s.held object

/-- All references are counted, and nothing else; the counts are signed 32-bit numbers. -/
def Balanced (s : ReferenceRun) : Prop := ∀ object, s.refCnt object = i32 (s.references object)

/-- Runs from any state in which the counts are right. -/
def machine (num : Nat) : Machine ReferenceRun ReferenceOp where
  start s := s.process.Ok num ∧ s.Balanced ∧ s.refused = fun _ => 0
  step := step

/-- The invariant: each refused push is counted as well. -/
structure Tracks (num : Nat) (s : ReferenceRun) : Prop where
  ok : s.process.Ok num
  count : ∀ object, s.refCnt object = i32 (s.references object + s.refused object)

variable {num : Nat} {s : ReferenceRun}

/-- One more reference of one object. -/
theorem add_apply (c : RefCounts) (object x : Nat) {n : Int} (h : c x = i32 n) :
    c.add object x = i32 (n + if x = object then 1 else 0) := by
  by_cases e : x = object
  · subst e
    rw [RefCounts.add, Function.update_self, h, i32_add, if_pos rfl]
  · rw [RefCounts.add, Function.update_of_ne e, h, if_neg e, add_zero]

theorem update_succ (f : Nat → Nat) (object x : Nat) :
    Function.update f object (f object + 1) x = f x + if x = object then 1 else 0 := by
  by_cases e : x = object
  · subst e
    rw [Function.update_self, if_pos rfl]
  · rw [Function.update_of_ne e, if_neg e, add_zero]

/-- Every call that returns keeps track of the references. -/
theorem Tracks.step (h : s.Tracks num) {op : ReferenceOp} {s' : ReferenceRun}
    (hs : s.step op = some s') : s'.Tracks num := by
  cases op with
  | push object fuel =>
    obtain ⟨⟨p', c'⟩, push, rfl⟩ := Option.map_eq_some_iff.mp hs
    obtain ⟨ok, rfl, events⟩ := h.ok.push_cases push
    refine ⟨ok, fun x => ?_⟩
    simp only [add_apply _ object x (h.count x), references, events]
    by_cases accepts : s.process.Accepts
    · simp only [if_pos accepts, List.count_append, List.count_singleton]
      grind
    · simp only [if_neg accepts, update_succ]
      congr 1
      push_cast
      ring
  | pop =>
    obtain ⟨⟨p', object⟩, pop, rfl⟩ := Option.map_eq_some_iff.mp hs
    obtain ⟨ok, -, events⟩ := h.ok.pop pop
    refine ⟨ok, fun x => ?_⟩
    have count := h.count x
    simp only [references, events, List.count_cons, update_succ] at count ⊢
    rw [count]
    grind
  | hold object =>
    cases hs
    refine ⟨h.ok, fun x => ?_⟩
    simp only [add_apply _ object x (h.count x), references, update_succ]
    congr 1
    push_cast
    ring
  | drop object =>
    simp only [ReferenceRun.step] at hs
    split_ifs at hs with some
    cases hs
    refine ⟨h.ok, fun x => ?_⟩
    have count := h.count x
    by_cases e : x = object
    · subst e
      simp only [RefCounts.sub, references, Function.update_self] at count ⊢
      rw [count]
      unfold i32
      omega
    · simp only [RefCounts.sub, references, Function.update_of_ne e] at count ⊢
      exact count

theorem tracks_of_reach (h : (machine num).Reach Machine.free s) : s.Tracks num := by
  refine h.inv ?_ fun s op s' tracks hs _ => tracks.step hs
  rintro s ⟨ok, balanced, none⟩
  refine ⟨ok, fun object => ?_⟩
  rw [balanced object, none, Nat.cast_zero, add_zero]

/-- A push meets a queue that takes its event. -/
def accepted (s : ReferenceRun) (op : ReferenceOp) (_ : ReferenceRun) : Prop :=
  match op with
  | .push _ _ => s.process.Accepts
  | .pop | .hold _ | .drop _ => True

instance (s s' : ReferenceRun) : (op : ReferenceOp) → Decidable (accepted s op s')
  | .push _ _ => inferInstanceAs (Decidable s.process.Accepts)
  | .pop | .hold _ | .drop _ => .isTrue trivial

/-- If all pushes are so, none is refused. -/
theorem refused_of_accepted (h : (machine num).Reach accepted s) : s.refused = fun _ => 0 := by
  refine h.inv (P := fun s => s.refused = fun _ => 0) (fun s start => start.2.2)
    fun s op s' none hs ok => ?_
  cases op with
  | push object fuel =>
    obtain ⟨r, -, rfl⟩ := Option.map_eq_some_iff.mp hs
    exact (if_pos ok).trans none
  | pop =>
    obtain ⟨r, -, rfl⟩ := Option.map_eq_some_iff.mp hs
    exact none
  | hold object =>
    cases hs
    exact none
  | drop object =>
    obtain ⟨-, hs⟩ := Option.ite_none_left_eq_some.mp hs
    cases hs
    exact none

theorem i32_add_eq_iff (x : Int) (n : Nat) : i32 x = i32 (x + n) ↔ 4294967296 ∣ n := by
  unfold i32
  omega

/-- In every state of a run, `Push` leaves no trace exactly if the queue takes the event, and
the references are balanced exactly if no push has been refused (modulo the width of the
count). -/
theorem leavesNoTrace_iff_of_reach (h : (machine num).Reach Machine.free s) :
    (∀ object, s.process.LeavesNoTrace s.refCnt object ↔ s.process.Accepts) ∧
      (s.Balanced ↔ ∀ object, 4294967296 ∣ s.refused object) := by
  have tracks := tracks_of_reach h
  refine ⟨tracks.ok.leavesNoTrace_iff s.refCnt, forall_congr' fun object => ?_⟩
  rw [tracks.count object, eq_comm, i32_add_eq_iff]

/-- A process with a new event queue and no references. -/
def unused (num : Nat) : ReferenceRun where
  process := ProcessState.initialized 7 num
  refCnt := fun _ => 0
  held := fun _ => 0

theorem unused_start (num : Nat) : (machine num).start (unused num) := by
  obtain ⟨ok, empty⟩ := ProcessState.initialized_ok 7 num
  refine ⟨ok, fun object => ?_, rfl⟩
  have empty : (unused num).process.events = [] := empty
  rw [references, empty]
  simp [unused, i32]

/-- An event goes through the queue, and another one comes in. -/
def pushPopPush : List ReferenceOp :=
  [.hold 4096, .push 4096 1, .pop, .push 8192 1, .drop 4096]

/-- The references are balanced, and the queue takes the next event. -/
theorem leavesNoTrace_iff_of_reach_pushPopPush :
    ∃ s, (machine 3).run (unused 3) pushPopPush = some s ∧ s.process.events = [8192] ∧
      s.held 4096 = 1 ∧ s.process.LeavesNoTrace s.refCnt 4096 ∧ s.Balanced := by
  have along : (machine 3).Along accepted (unused 3) pushPopPush := by decide +kernel
  have seen : ((machine 3).run (unused 3) pushPopPush).map (fun s =>
      (s.process.events, s.held 4096, decide s.process.Accepts)) = some ([8192], 1, true) := by
    decide +kernel
  obtain ⟨s, run, reach, seen⟩ := Machine.Reach.of_along_seen (.start (unused_start 3)) along seen
  simp only [Prod.mk.injEq] at seen
  obtain ⟨events, held, room⟩ := seen
  obtain ⟨push, balanced⟩ := leavesNoTrace_iff_of_reach (reach.mono fun _ _ _ _ => trivial)
  refine ⟨s, run, events, held, (push 4096).mpr (of_decide_eq_true room),
    balanced.mpr fun object => ?_⟩
  rw [refused_of_accepted reach]
  exact Nat.dvd_zero _

/-- Two pushes into a queue of capacity 1: both return, the second event is refused, and yet two
references are counted. -/
theorem push_leaves_trace : ∃ s s', (machine 1).Reach Machine.free s ∧
    s.step (.push 4096 1) = some s' ∧ s'.process.events = s.process.events ∧
      s.refCnt 4096 = 1 ∧ s'.refCnt 4096 = 2 ∧
        ¬s.process.LeavesNoTrace s.refCnt 4096 ∧ ¬s'.Balanced := by
  have seen : ((unused 1).step (.push 4096 1)).bind (fun s => (s.step (.push 4096 1)).map fun s' =>
      (s.process.events, s.refCnt 4096, decide s.process.Accepts, s'.process.events,
        s'.refCnt 4096, s'.held 4096)) = some ([4096], 1, false, [4096], 2, 0) := by
    decide +kernel
  obtain ⟨s, first, seen⟩ := Option.bind_eq_some_iff.mp seen
  obtain ⟨s', second, seen⟩ := Option.map_eq_some_iff.mp seen
  simp only [Prod.mk.injEq] at seen
  obtain ⟨events, count, refused, events', count', held'⟩ := seen
  have reach : (machine 1).Reach Machine.free s :=
    .step (i := .push 4096 1) (.start (unused_start 1)) first trivial
  refine ⟨s, s', reach, second, events'.trans events.symm, count, count', fun clean => ?_,
    fun balanced => ?_⟩
  · have accepts := ((tracks_of_reach reach).ok.leavesNoTrace_iff _ _).mp clean
    exact of_decide_eq_false refused accepts
  · have := balanced 4096
    rw [references, events', count', held'] at this
    exact absurd this (by decide)

end ReferenceRun

end Fuxi.Shm.Topo
