import Mathlib.Algebra.Group.Nat.Defs
import Fuxi.Lib.Links
import Fuxi.Lib.Machine

/-!
# `IdAllocator`

Ids are numbers with a version. Free ids form a stack: the head holds the value on top and
a version that every push bumps, and `_free_next_value` holds the value below each free one.
When the stack is empty, `next_value` gives a new value. Any number of threads allocate and
deallocate; one step of a thread is one atomic access, and the steps of different threads
interleave in any order.
-/

namespace Fuxi.Base

open Lib

variable {Tid : Type*}

/-- `VersionedValue<T>`. -/
structure VersionedValue where
  value : Nat
  version : Nat
  deriving DecidableEq

namespace IdAllocator

/-- The types that `VersionedValue` supports. -/
inductive IdType
  | uint16
  | uint32

/-- The number of values of the type. -/
def IdType.size : IdType → Nat
  | .uint16 => 2 ^ 16
  | .uint32 => 2 ^ 32

/-- `FREE_LIST_TAIL`, the greatest number. -/
def freeListTail (T : IdType) : Nat := T.size - 1

/-- `ACTIVE_FLAG`. -/
def activeFlag (T : IdType) : Nat := freeListTail T - 1

/-- What a thread does next: `allocate` up to `allocated`, `deallocate` from `loadTop` on.
The arguments are the local `current_head`, the `new_head.value` and the `id`. -/
inductive Pc
  | idle
  | loadHead
  | loadNext (head : VersionedValue)
  | pop (head : VersionedValue) (next : Nat)
  | storeActive (id : VersionedValue)
  | fetchAdd
  | ensure (id : VersionedValue)
  | loadTop (id : VersionedValue)
  | storeNext (id head : VersionedValue)
  | push (id head : VersionedValue)

/-- The allocator, the threads and the ids that each of them holds. `free` lists the values
on the free list, `pushes` counts the deallocations, and `readAt t` is their number when
thread `t` has read the head last; no step of the code reads these three. -/
structure State (Tid : Type*) where
  nextValue : Nat
  freeHead : VersionedValue
  freeNextValue : Nat → Nat
  pc : Tid → Pc
  held : Tid → List VersionedValue
  free : List Nat
  pushes : Nat
  readAt : Tid → Nat

/-- A thread allocates an id, deallocates one that it holds, or goes on; a weak
compare-exchange fails for no reason. -/
inductive Move
  | allocate
  | deallocate (id : VersionedValue)
  | step
  | weakFail

namespace State

variable [DecidableEq Tid]

def goto (s : State Tid) (t : Tid) (p : Pc) : State Tid :=
  { s with pc := Function.update s.pc t p }

/-- The thread has read the head. -/
def see (s : State Tid) (t : Tid) : State Tid :=
  { s with readAt := Function.update s.readAt t s.pushes }

/-- `allocate` looks at the head that it has read. -/
def look (T : IdType) (head : VersionedValue) : Pc :=
  if head.value ≠ freeListTail T then .loadNext head else .fetchAdd

/-- Store an entry of `_free_next_value`. -/
def store (s : State Tid) (index value : Nat) : State Tid :=
  { s with freeNextValue := Function.update s.freeNextValue index value }

/-- `allocate` returns an id. -/
def receive (s : State Tid) (t : Tid) (id : VersionedValue) : State Tid :=
  { s.goto t .idle with held := Function.update s.held t (id :: s.held t) }

/-- The next step of a thread; `ensure` and the store behind it are one step. -/
def advance (T : IdType) (s : State Tid) (t : Tid) : Option (State Tid) :=
  match s.pc t with
  | .idle => none
  | .loadHead => some ((s.see t).goto t (look T s.freeHead))
  | .loadNext head => some (s.goto t (.pop head (s.freeNextValue head.value)))
  | .pop head next =>
    if s.freeHead = head then
      some { s.goto t (.storeActive head) with
        freeHead := ⟨next, head.version⟩
        free := s.free.tail }
    else some ((s.see t).goto t (look T s.freeHead))
  | .storeActive id => some ((s.store id.value (activeFlag T)).receive t id)
  | .fetchAdd =>
    some { s.goto t (.ensure ⟨s.nextValue, 0⟩) with nextValue := (s.nextValue + 1) % T.size }
  | .ensure id => some ((s.store id.value (activeFlag T)).receive t id)
  | .loadTop id => some ((s.see t).goto t (.storeNext id s.freeHead))
  | .storeNext id head =>
    some ((s.store id.value head.value).goto t
      (.push ⟨id.value, (head.version + 1) % T.size⟩ head))
  | .push id head =>
    if s.freeHead = head then
      some { s.goto t .idle with
        freeHead := id
        free := id.value :: s.free
        pushes := s.pushes + 1 }
    else some ((s.see t).goto t (.storeNext id s.freeHead))

def step (T : IdType) (s : State Tid) : Tid × Move → Option (State Tid)
  | (t, .allocate) =>
    match s.pc t with
    | .idle => some (s.goto t .loadHead)
    | _ => none
  | (t, .deallocate id) =>
    match s.pc t with
    | .idle =>
      if id ∈ s.held t then
        some { s.goto t (.loadTop id) with
          held := Function.update s.held t ((s.held t).erase id) }
      else none
    | _ => none
  | (t, .step) => s.advance T t
  | (t, .weakFail) =>
    match s.pc t with
    | .pop _ _ => some ((s.see t).goto t (look T s.freeHead))
    | .push id _ => some ((s.see t).goto t (.storeNext id s.freeHead))
    | _ => none

end State

/-- A new allocator; `blank` is what `_free_next_value` holds where nothing is stored. -/
def unused (Tid : Type*) (T : IdType) (blank : Nat → Nat) : State Tid where
  nextValue := 0
  freeHead := ⟨freeListTail T, 0⟩
  freeNextValue := blank
  pc := fun _ => .idle
  held := fun _ => []
  free := []
  pushes := 0
  readAt := fun _ => 0

/-- The interleavings of any number of threads that use one allocator. -/
def machine (Tid : Type*) [DecidableEq Tid] (T : IdType) (blank : Nat → Nat) :
    Machine (State Tid) (Tid × Move) where
  start s := s = unused Tid T blank
  step := State.step T

end IdAllocator

end Fuxi.Base
