import Fuxi.Base.ConcurrentVector
import Fuxi.Base.IdAllocator.Sequential

/-!
# Thread local storage that can be enumerated

`EnumerableThreadLocal` has one element for every thread id. To save memory, the instances of
`CompactEnumerableThreadLocal` share such elements: each instance has a number of its own, which
tells it the storage and the place in the cache lines that it uses. The number of a destroyed
instance and the id of a thread that has ended are given out again. Calls do not overlap here.
-/

namespace Fuxi.Base

open Lib

variable {Tid Obj V : Type*}

/-- `ThreadId` of one type: the allocator, the threads that have an id, and their ids. -/
structure ThreadIds (Tid : Type*) where
  ids : IdAllocator.Ids
  threads : List Tid
  threadId : Tid → Nat

namespace ThreadIds

variable [DecidableEq Tid]

/-- A thread gets its id at the first call. -/
def currentThreadId (s : ThreadIds Tid) (t : Tid) : Nat × ThreadIds Tid :=
  if t ∈ s.threads then (s.threadId t, s)
  else
    let id := s.ids.allocate .uint16
    (id.1.value, ⟨id.2, t :: s.threads, Function.update s.threadId t id.1.value⟩)

/-- From the second call on the id stays the same. -/
theorem currentThreadId_again (s : ThreadIds Tid) (t : Tid) :
    (s.currentThreadId t).2.currentThreadId t = s.currentThreadId t := by
  unfold currentThreadId
  by_cases known : t ∈ s.threads
  · simp [known]
  · simp [known]

/-- `~ThreadId`, when the thread ends. -/
def exit (s : ThreadIds Tid) (t : Tid) : ThreadIds Tid :=
  if t ∈ s.threads then
    { s with ids := s.ids.deallocate .uint16 (s.threadId t), threads := s.threads.erase t }
  else s

end ThreadIds

/-- `ThreadId::end`. -/
def ThreadIds.threadEnd (s : ThreadIds Tid) : Nat := s.ids.nextValue

/-- `EnumerableThreadLocal<T>`: the number of blocks of `_storage`, and its elements. Blocks are
created with zeros in them, so zeros stand also for the elements that do not exist yet. -/
structure EnumerableThreadLocal (V : Type*) where
  blockNum : Nat
  element : Nat → V

namespace EnumerableThreadLocal

/-- The blocks of `ConcurrentVector<T, 128>`. -/
def blocks : ConcurrentVector.Meta := ⟨7, by decide⟩

def size (s : EnumerableThreadLocal V) : Nat := s.blockNum <<< blocks.blockMaskBits

/-- `_storage.ensure`. -/
def ensure (s : EnumerableThreadLocal V) (index : Nat) : EnumerableThreadLocal V :=
  { s with
    blockNum := max s.blockNum ((ConcurrentVector.Call.ensure index).expectBlockNum blocks) }

/-- Assign to `local()`; `index` is the id of the thread. -/
def setLocal (s : EnumerableThreadLocal V) (index : Nat) (f : V → V) : EnumerableThreadLocal V :=
  { s.ensure index with element := Function.update s.element index (f (s.element index)) }

/-- `for_each` visits the elements below this one. -/
def visited (s : EnumerableThreadLocal V) (threadEnd : Nat) : Nat := min threadEnd (u16 s.size)

/-- `for_each` with a callback that assigns. -/
def assignEach (s : EnumerableThreadLocal V) (threadEnd : Nat) (f : V → V) :
    EnumerableThreadLocal V :=
  { s with element := fun i =>
      if i < s.visited threadEnd then f (s.element i) else s.element i }

/-- The elements that `for_each` visits. -/
def each (s : EnumerableThreadLocal V) (threadEnd : Nat) : List V :=
  (List.range (s.visited threadEnd)).map s.element

/-- `for_each` visits what an earlier one has assigned. -/
theorem each_assignEach (s : EnumerableThreadLocal V) (threadEnd : Nat) (f : V → V) :
    (s.assignEach threadEnd f).each threadEnd = (s.each threadEnd).map f := by
  rw [each, each, List.map_map]
  exact List.map_congr_left fun i mem => if_pos (List.mem_range.mp mem)

theorem size_eq (s : EnumerableThreadLocal V) : s.size = s.blockNum * 128 := Nat.shiftLeft_eq ..

/-- The blocks up to the one of a thread id. -/
theorem expectBlockNum_ensure {index : Nat} (id : index < 2 ^ 16) :
    (ConcurrentVector.Call.ensure index).expectBlockNum blocks = index / 128 + 1 := by
  have few : index / blocks.blockSize + 1 < 4294967296 :=
    (Nat.succ_le_succ (Nat.div_le_self _ _)).trans_lt (by omega)
  exact ConcurrentVector.expectBlockNum_ensure blocks few

end EnumerableThreadLocal

/-- `CacheLine`. -/
abbrev CacheLine (V : Type*) := Nat → V

/-- `CompactEnumerableThreadLocal`; a storage is known by its index in `storage_vector`. -/
structure CompactEnumerableThreadLocal where
  instanceId : Nat
  cachelineOffset : Nat
  storage : Nat
  deriving DecidableEq

namespace CompactEnumerableThreadLocal

/-- The place of an instance with a number; `n` is `NUM_PER_CACHELINE`. -/
def ofId (n instanceId : Nat) : CompactEnumerableThreadLocal :=
  ⟨instanceId, instanceId % n, instanceId / n⟩

/-- The static members of the class, the thread ids, and the instances that are alive. -/
structure State (Tid Obj V : Type*) where
  idAllocator : IdAllocator.Ids
  storageVector : Nat → EnumerableThreadLocal (CacheLine V)
  threadIds : ThreadIds Tid
  alive : List Obj
  object : Obj → CompactEnumerableThreadLocal

namespace State

/-- Nothing has been used yet. -/
def unused [Zero V] (blank blank' : Nat → Nat) (threadId : Tid → Nat)
    (object : Obj → CompactEnumerableThreadLocal) : State Tid Obj V where
  idAllocator := .unused .uint32 blank
  storageVector _ := ⟨0, fun _ _ => 0⟩
  threadIds := ⟨.unused .uint16 blank', [], threadId⟩
  alive := []
  object := object

/-- The storage of an instance. -/
def storageOf (s : State Tid Obj V) (o : Obj) : EnumerableThreadLocal (CacheLine V) :=
  s.storageVector (s.object o).storage

def setStorage (s : State Tid Obj V) (o : Obj) (storage : EnumerableThreadLocal (CacheLine V)) :
    State Tid Obj V :=
  { s with storageVector := Function.update s.storageVector (s.object o).storage storage }

/-- Assign to the entry of an instance in a cache line. -/
def assign (s : State Tid Obj V) (o : Obj) (f : V → V) (line : CacheLine V) : CacheLine V :=
  let i := (s.object o).cachelineOffset
  Function.update line i (f (line i))

/-- Assign to `local()`. -/
def setLocal [DecidableEq Tid] (s : State Tid Obj V) (t : Tid) (o : Obj) (f : V → V) :
    State Tid Obj V :=
  let current := s.threadIds.currentThreadId t
  { s.setStorage o ((s.storageOf o).setLocal current.1 (s.assign o f)) with
    threadIds := current.2 }

/-- `for_each` with a callback that assigns. -/
def assignEach (s : State Tid Obj V) (o : Obj) (f : V → V) : State Tid Obj V :=
  s.setStorage o ((s.storageOf o).assignEach s.threadIds.threadEnd (s.assign o f))

/-- The values that `for_each` visits. -/
def each (s : State Tid Obj V) (o : Obj) : List V :=
  ((s.storageOf o).each s.threadIds.threadEnd).map fun line =>
    line (s.object o).cachelineOffset

variable [DecidableEq Obj]

/-- The constructor. -/
def construct (n : Nat) (s : State Tid Obj V) (o : Obj) : State Tid Obj V :=
  let id := s.idAllocator.allocate .uint32
  { s with
    idAllocator := id.2
    alive := o :: s.alive
    object := Function.update s.object o (ofId n id.1.value) }

/-- The move assignment, which swaps. -/
def moveAssign (s : State Tid Obj V) (o other : Obj) : State Tid Obj V :=
  { s with
    object := Function.update (Function.update s.object other (s.object o)) o (s.object other) }

/-- The move constructor. -/
def moveConstruct (n : Nat) (s : State Tid Obj V) (o other : Obj) : State Tid Obj V :=
  (s.construct n o).moveAssign o other

/-- The destructor. -/
def destroy [Zero V] (s : State Tid Obj V) (o : Obj) : State Tid Obj V :=
  { s.assignEach o fun _ => 0 with
    idAllocator := s.idAllocator.deallocate .uint32 (s.object o).instanceId
    alive := s.alive.erase o }

end State

end CompactEnumerableThreadLocal

end Fuxi.Base
