import Mathlib.Data.List.Flatten
import Fuxi.Base.ThreadLocal
import Fuxi.Mm.MemoryResource.Release

/-!
# `SharedMonotonicBufferResource`

Each thread allocates from a resource of its own. A release runs the destructors of all
resources before it releases one resource after the other, and it finds them with `for_each`.
-/

namespace Fuxi.Mm

open Base Lib

namespace ExclusiveMonotonicBufferResource

/-- The destructors that are called. -/
def Effect.tasks : Effect → List DestroyTask
  | .destruct task => [task]
  | .read _ | .deallocatePages _ | .deallocate _ => []

/-- The resource after `destruct_all`. -/
def destructed (r : ExclusiveMonotonicBufferResource) : ExclusiveMonotonicBufferResource :=
  { r with lastDestroyTaskArray := [] }

end ExclusiveMonotonicBufferResource

open ExclusiveMonotonicBufferResource

/-- The element of a thread is found with the id of the thread. -/
structure SharedMonotonicBufferResource where
  resources : EnumerableThreadLocal ExclusiveMonotonicBufferResource

namespace SharedMonotonicBufferResource

/-- A new resource; the constructor of `_resources` gives every element the page allocator. -/
def new (pageSize : Nat) : SharedMonotonicBufferResource :=
  ⟨⟨0, fun _ => { pageSize := pageSize }⟩⟩

/-- What `allocate` does to the resource of the thread. -/
def allocate (s : SharedMonotonicBufferResource) (index bytes alignment : Nat)
    (answers : Answers) : SharedMonotonicBufferResource :=
  ⟨s.resources.setLocal index fun r => (r.allocate bytes alignment answers).2.resource⟩

/-- `register_destructor`. -/
def registerDestructor (s : SharedMonotonicBufferResource) (index : Nat) (task : DestroyTask)
    (answers : Answers) : SharedMonotonicBufferResource :=
  ⟨s.resources.setLocal index fun r => (r.registerDestructor task answers).resource⟩

/-- `release`; `threadEnd` is `ThreadId::end`. -/
def release (s : SharedMonotonicBufferResource) (threadEnd : Nat) :
    List Effect × SharedMonotonicBufferResource :=
  let destructed := s.resources.assignEach threadEnd destructed
  ((s.resources.each threadEnd).flatMap (fun r => destructAll r.lastDestroyTaskArray) ++
      (destructed.each threadEnd).flatMap (fun r => r.release.1),
    ⟨destructed.assignEach threadEnd fun r => r.release.2⟩)

end SharedMonotonicBufferResource

/-! ## Runs -/

/-- A resource, the number of ids that threads have got, and the destructors that each thread
has registered since the last release, the newest first. -/
structure SharedRun where
  shared : SharedMonotonicBufferResource
  threadIds : Nat
  registered : Nat → List DestroyTask

inductive SharedMove
  | threadId
  | allocate (index bytes alignment : Nat) (answers : Answers)
  | registerDestructor (index : Nat) (task : DestroyTask) (answers : Answers)
  | release

namespace SharedRun

def initial (pageSize : Nat) : SharedRun := ⟨.new pageSize, 0, fun _ => []⟩

/-- One call; a thread calls with its id. -/
def step (s : SharedRun) : SharedMove → Option SharedRun
  | .threadId => if s.threadIds < 65536 then some { s with threadIds := s.threadIds + 1 } else none
  | .allocate index bytes alignment answers =>
    if index < s.threadIds then
      some { s with shared := s.shared.allocate index bytes alignment answers }
    else none
  | .registerDestructor index task answers =>
    if index < s.threadIds then
      some { s with
        shared := s.shared.registerDestructor index task answers
        registered := Function.update s.registered index (task :: s.registered index) }
    else none
  | .release =>
    some { s with shared := (s.shared.release (u16 s.threadIds)).2, registered := fun _ => [] }

/-- The resource of a thread, with the pages and blocks that it has taken. -/
def slot (s : SharedRun) (index : Nat) : ResourceRun :=
  let r := s.shared.resources.element index
  { resource := r, pages := r.pages, blocks := r.blocks }

/-- The pages that all threads have taken. -/
def pages (s : SharedRun) : List Nat := (List.range s.threadIds).flatMap fun i => (s.slot i).pages

/-- The blocks that all threads have taken. -/
def blocks (s : SharedRun) : List OversizePage :=
  (List.range s.threadIds).flatMap fun i => (s.slot i).blocks

/-- What a release does outside the resource. -/
def effects (s : SharedRun) : List Effect := (s.shared.release (u16 s.threadIds)).1

/-- What `release` does in a state: the walks find all slots in use, every destructor is called
once, the newest one of a thread first, nothing is given back before, and every array is read
while the memory around it is held. -/
structure Orderly (pageSize : Nat) (s : SharedRun) : Prop where
  full : ∀ i, Full (s.slot i).resource
  called : s.effects.flatMap Effect.tasks = (List.range s.threadIds).flatMap s.registered
  before : ∃ first rest, s.effects = first ++ rest ∧
    (∀ e ∈ first, (∃ task, e = .destruct task) ∨ ∃ array, e = .read array) ∧
      ∀ e ∈ rest, ∀ task, e ≠ .destruct task
  reads : ReadsHeld pageSize s.pages s.blocks s.effects

/-- `for_each` visits every resource for which a destructor is registered. -/
def Complete (s : SharedRun) : Prop :=
  ∀ i < s.threadIds, s.registered i ≠ [] → i < s.shared.resources.visited (u16 s.threadIds)

/-- The requests of all threads are careful, and each release visits every resource for which
a destructor is registered. -/
def careful (s : SharedRun) (m : SharedMove) (_ : SharedRun) : Prop :=
  match m with
  | .threadId => True
  | .allocate index bytes alignment answers =>
    let call := ResourceCall.allocate bytes alignment answers
    ResourceRun.careful (s.slot index) call ((s.slot index).next call)
  | .registerDestructor index task answers =>
    let call := ResourceCall.registerDestructor task answers
    ResourceRun.careful (s.slot index) call ((s.slot index).next call)
  | .release => s.Complete

end SharedRun

/-- The runs of a new resource with pages of `pageSize` bytes, with any number of threads. -/
def sharedMachine (pageSize : Nat) : Machine SharedRun SharedMove where
  start s := s = .initial pageSize
  step := SharedRun.step

/-! ## The destructors -/

namespace ExclusiveMonotonicBufferResource

theorem destructAll_tasks (c : Chain DestroyTask) :
    (destructAll c).flatMap Effect.tasks = c.items := by
  simp [destructAll, Effect.tasks, List.flatMap_assoc, Chain.items]

/-- Without registered destructors a release calls none. -/
theorem release_destructed (r : ExclusiveMonotonicBufferResource) :
    ∀ e ∈ r.destructed.release.1, ∀ task, e ≠ .destruct task := by
  rintro e mem task rfl
  simp [release, destructed, destructAll, releasePages, releaseOversizePages] at mem

theorem allocate_registered (r : ExclusiveMonotonicBufferResource) (bytes alignment : Nat)
    (answers : Answers) :
    (r.allocate bytes alignment answers).2.resource.lastDestroyTaskArray.items =
      r.lastDestroyTaskArray.items := by
  rw [allocate_lastDestroyTaskArray]

theorem registerDestructor_registered (r : ExclusiveMonotonicBufferResource) (task : DestroyTask)
    (answers : Answers) :
    (r.registerDestructor task answers).resource.lastDestroyTaskArray.items =
      task :: r.lastDestroyTaskArray.items := by
  unfold registerDestructor
  split_ifs with room
  · exact Chain.items_put room task
  · simp only [registerInNewArray, allocate_lastDestroyTaskArray, Chain.items_cons,
      List.singleton_append]

/-! ## What is read -/

variable {pageSize : Nat} {pages pages' : List Nat} {blocks blocks' : List OversizePage}
  {effects : List Effect}

/-- It does not matter what is held in addition. -/
theorem ReadsHeld.mono (h : ReadsHeld pageSize pages blocks effects)
    (sub : pages.Subperm pages') (sub' : blocks.Subperm blocks') :
    ReadsHeld pageSize pages' blocks' effects := by
  induction effects generalizing pages pages' blocks blocks' with
  | nil => trivial
  | cons effect effects ih =>
    refine ⟨fun array eq => ?_, ih h.2 (sub.diff_right _) (sub'.diff_right _)⟩
    obtain ⟨o, mem, inside⟩ := h.1 array eq
    exact ⟨o, memory_subset sub.subset sub'.subset mem, inside⟩

/-- Resources that are released one after the other. -/
theorem readsHeld_releases {l : List ExclusiveMonotonicBufferResource}
    (h : ∀ r ∈ l, ReadsHeld pageSize r.pages r.blocks r.release.1) :
    ReadsHeld pageSize (l.flatMap ExclusiveMonotonicBufferResource.pages)
      (l.flatMap ExclusiveMonotonicBufferResource.blocks) (l.flatMap fun r => r.release.1) := by
  induction l with
  | nil => trivial
  | cons r l ih =>
    simp only [List.flatMap_cons]
    have own := (h r List.mem_cons_self).mono
      (List.sublist_append_left r.pages (l.flatMap ExclusiveMonotonicBufferResource.pages)).subperm
      (List.sublist_append_left r.blocks
        (l.flatMap ExclusiveMonotonicBufferResource.blocks)).subperm
    refine readsHeld_append own ?_
    rw [ResourceRun.release_pages, ResourceRun.release_blocks, diff_append_self, diff_append_self]
    exact ih fun r mem => h r (List.mem_cons_of_mem _ mem)

end ExclusiveMonotonicBufferResource

/-! ## Every run -/

namespace ResourceRun

/-- What has been returned does not matter for the ledger. -/
theorem Ledger.slot {pageSize : Nat} {s : ResourceRun} (h : Ledger pageSize s) :
    Ledger pageSize
      { resource := s.resource, pages := s.resource.pages, blocks := s.resource.blocks } := by
  obtain ⟨size, pages, blocks, space, housed, tasks, opens⟩ := h
  rw [pages, blocks] at space tasks
  exact ⟨size, rfl, rfl, space, housed, tasks, opens⟩

end ResourceRun

namespace SharedRun

variable {s s' : SharedRun} {pageSize : Nat}

/-- The resources that a release visits. -/
def visitedResources (s : SharedRun) : List ExclusiveMonotonicBufferResource :=
  s.shared.resources.each (u16 s.threadIds)

theorem effects_eq (s : SharedRun) : s.effects =
    destructAll (s.visitedResources.flatMap ExclusiveMonotonicBufferResource.lastDestroyTaskArray) ++
      (s.visitedResources.map destructed).flatMap fun r => r.release.1 := by
  rw [effects, SharedMonotonicBufferResource.release, EnumerableThreadLocal.each_assignEach]
  simp only [destructAll, List.flatMap_assoc]
  rfl

/-- Only threads that have an id are visited. -/
theorem visited_le (s : SharedRun) : s.shared.resources.visited (u16 s.threadIds) ≤ s.threadIds :=
  (min_le_left _ _).trans (Nat.mod_le _ _)

/-- The invariant: the ledger of each thread, and its destructors. -/
structure Kept (pageSize : Nat) (s : SharedRun) : Prop where
  ledger : ∀ i, ResourceRun.Ledger pageSize (s.slot i)
  full : ∀ i, Full (s.slot i).resource
  tasks : ∀ i, (s.slot i).resource.lastDestroyTaskArray.items = s.registered i
  unused : ∀ i, s.threadIds ≤ i → s.registered i = []

namespace Kept

/-- The destructors that are called are those of the resources that are visited. -/
theorem called (h : Kept pageSize s) : s.effects.flatMap Effect.tasks =
    (List.range (s.shared.resources.visited (u16 s.threadIds))).flatMap s.registered := by
  have none : ((s.visitedResources.map destructed).flatMap fun r => r.release.1).flatMap
      Effect.tasks = [] := by
    simp only [List.flatMap_eq_nil_iff, List.mem_flatMap, List.mem_map]
    rintro e ⟨-, ⟨r, -, rfl⟩, mem⟩
    cases e with
    | destruct task => exact absurd rfl (release_destructed r _ mem task)
    | read _ | deallocatePages _ | deallocate _ => rfl
  have tasks : s.registered = fun i => (s.slot i).resource.lastDestroyTaskArray.items :=
    funext fun i => (h.tasks i).symm
  rw [effects_eq, List.flatMap_append, none, List.append_nil, destructAll_tasks, tasks]
  simp only [visitedResources, EnumerableThreadLocal.each, Chain.items, List.flatMap_assoc,
    List.flatMap_map]
  rfl

/-- Lists for the first numbers only, one after the other. -/
theorem flatMap_range_eq_iff {α : Type*} {v n : Nat} (le : v ≤ n) (f : Nat → List α) :
    (List.range v).flatMap f = (List.range n).flatMap f ↔ ∀ i < n, f i ≠ [] → i < v := by
  obtain ⟨more, rfl⟩ := Nat.exists_eq_add_of_le le
  rw [List.range_add, List.flatMap_append, List.self_eq_append_right, List.flatMap_map,
    List.flatMap_eq_nil_iff]
  constructor
  · intro none i lt some
    by_contra outside
    have := none (i - v) (List.mem_range.mpr (by omega))
    rw [Nat.add_sub_cancel' (not_lt.mp outside)] at this
    exact some this
  · intro inside i mem
    by_contra some
    have := inside (v + i) (by have := List.mem_range.mp mem; omega) some
    omega

theorem called_iff (h : Kept pageSize s) :
    s.effects.flatMap Effect.tasks = (List.range s.threadIds).flatMap s.registered ↔
      s.Complete := by
  rw [h.called]
  exact flatMap_range_eq_iff s.visited_le s.registered

/-- The pages of the resources that are visited are among those of all threads. -/
theorem visited_sublist {α : Type*} (s : SharedRun)
    (f : ExclusiveMonotonicBufferResource → List α) :
    (s.visitedResources.flatMap f).Sublist
      ((List.range s.threadIds).flatMap fun i => f (s.slot i).resource) := by
  rw [visitedResources, EnumerableThreadLocal.each, List.flatMap_map]
  exact List.Sublist.flatMap (List.range_sublist.mpr s.visited_le) _

theorem reads (h : Kept pageSize s) : ReadsHeld pageSize s.pages s.blocks s.effects := by
  have owned (i : Nat) := h.ledger i
  rw [effects_eq]
  refine readsHeld_append (readsHeld_destructAll fun a mem => ?_) ?_
  · obtain ⟨array, listed, rfl⟩ := List.mem_map.mp mem
    obtain ⟨r, visited, listed⟩ := List.mem_flatMap.mp listed
    obtain ⟨i, lt, rfl⟩ := List.mem_map.mp visited
    have mem := List.mem_range.mpr ((List.mem_range.mp lt).trans_le s.visited_le)
    obtain ⟨o, around, inside⟩ := (owned i).tasks _ (List.mem_map_of_mem listed)
    refine ⟨o, memory_subset ?_ ?_ around, inside⟩
    · exact fun page own => List.mem_flatMap.mpr ⟨i, mem, own⟩
    · exact fun block own => List.mem_flatMap.mpr ⟨i, mem, own⟩
  · have pages : (destructAll (s.visitedResources.flatMap
        ExclusiveMonotonicBufferResource.lastDestroyTaskArray)).flatMap Effect.pages = [] ∧
        (destructAll (s.visitedResources.flatMap
          ExclusiveMonotonicBufferResource.lastDestroyTaskArray)).flatMap Effect.blocks = [] := by
      constructor <;> simp [destructAll, Effect.pages, Effect.blocks, List.flatMap_assoc]
    rw [pages.1, pages.2, List.diff_nil, List.diff_nil]
    refine (readsHeld_releases fun r mem => ?_).mono (List.Sublist.subperm ?_)
      (List.Sublist.subperm ?_)
    · obtain ⟨r, visited, rfl⟩ := List.mem_map.mp mem
      obtain ⟨i, -, rfl⟩ := List.mem_map.mp visited
      have size := (owned i).size
      have housed := (owned i).housed
      rw [← size]
      exact release_readsHeld (r := destructed _) ⟨housed.current, housed.pageArrays,
        housed.oversizePageArrays⟩ fun a mem => absurd mem List.not_mem_nil
    · rw [List.flatMap_map]
      exact visited_sublist s ExclusiveMonotonicBufferResource.pages
    · rw [List.flatMap_map]
      exact visited_sublist s ExclusiveMonotonicBufferResource.blocks

theorem orderly_iff (h : Kept pageSize s) : Orderly pageSize s ↔ s.Complete := by
  refine ⟨fun orderly => h.called_iff.mp orderly.called, fun complete => ?_⟩
  refine ⟨h.full, h.called_iff.mpr complete, ⟨_, _, effects_eq s, ?_, ?_⟩, h.reads⟩
  · intro e mem
    obtain destruct | ⟨a, -, read⟩ := mem_destructAll mem
    · exact Or.inl destruct
    · exact Or.inr ⟨a, read⟩
  · intro e mem
    obtain ⟨r, listed, mem⟩ := List.mem_flatMap.mp mem
    obtain ⟨r, -, rfl⟩ := List.mem_map.mp listed
    exact release_destructed r e mem

end Kept

/-! ### The calls -/

/-- One thread changes its resource. -/
theorem Kept.change (h : Kept pageSize s) {index : Nat} (lt : index < s.threadIds)
    (f : ExclusiveMonotonicBufferResource → ExclusiveMonotonicBufferResource)
    (tasks : List DestroyTask)
    (ledger : ResourceRun.Ledger pageSize
      { resource := f (s.slot index).resource
        pages := (f (s.slot index).resource).pages
        blocks := (f (s.slot index).resource).blocks })
    (full : Full (f (s.slot index).resource))
    (items : (f (s.slot index).resource).lastDestroyTaskArray.items = tasks) :
    Kept pageSize { s with
      shared := ⟨s.shared.resources.setLocal index f⟩
      registered := Function.update s.registered index tasks } := by
  have own : (s.shared.resources.setLocal index f).element index = f (s.slot index).resource :=
    Function.update_self ..
  have other {i : Nat} (ne : i ≠ index) :
      (s.shared.resources.setLocal index f).element i = (s.slot i).resource :=
    Function.update_of_ne ne ..
  refine ⟨fun i => ?_, fun i => ?_, fun i => ?_, fun i le => ?_⟩
  · obtain rfl | ne := eq_or_ne i index
    · simpa only [slot, own] using ledger
    · simpa only [slot, other ne] using h.ledger i
  · obtain rfl | ne := eq_or_ne i index
    · simpa only [slot, own] using full
    · simpa only [slot, other ne] using h.full i
  · obtain rfl | ne := eq_or_ne i index
    · simpa only [slot, own, Function.update_self] using items
    · simpa only [slot, other ne, Function.update_of_ne ne] using h.tasks i
  · have le : s.threadIds ≤ i := le
    simpa only [Function.update_of_ne (lt.trans_le le).ne'] using h.unused i le

theorem release_element (s : SharedMonotonicBufferResource) (threadEnd i : Nat) :
    (s.release threadEnd).2.resources.element i =
      if i < s.resources.visited threadEnd then (s.resources.element i).release.2
      else s.resources.element i := by
  by_cases seen : i < s.resources.visited threadEnd
  · rw [if_pos seen]
    refine (if_pos seen).trans ?_
    have first : (s.resources.assignEach threadEnd destructed).element i =
        (s.resources.element i).destructed := if_pos seen
    rw [first]
    rfl
  · rw [if_neg seen]
    exact (if_neg seen).trans (if_neg seen)

theorem Kept.release (h : Kept pageSize s) (complete : s.Complete) :
    Kept pageSize { s with
      shared := (s.shared.release (u16 s.threadIds)).2, registered := fun _ => [] } := by
  refine ⟨fun i => ?_, fun i => ?_, fun i => ?_, fun _ _ => rfl⟩
  · simp only [slot, release_element]
    split_ifs
    · exact (h.ledger i).released.slot
    · exact h.ledger i
  · simp only [slot, release_element]
    split_ifs
    · exact ⟨trivial, trivial, trivial⟩
    · exact h.full i
  · simp only [slot, release_element]
    split_ifs with seen
    · rfl
    · have tasks : (s.shared.resources.element i).lastDestroyTaskArray.items = s.registered i :=
        h.tasks i
      rw [tasks]
      by_contra some
      obtain lt | le := lt_or_ge i s.threadIds
      · exact seen (complete i lt some)
      · exact some (h.unused i le)

theorem Kept.step (h : Kept pageSize s) (large : sizeofPageArray ≤ pageSize) {m : SharedMove}
    (hs : s.step m = some s') (ok : s.careful m s') : Kept pageSize s' := by
  cases m with
  | threadId =>
    obtain ⟨-, hs⟩ := Option.ite_none_right_eq_some.mp hs
    cases hs
    exact ⟨h.ledger, h.full, h.tasks, fun i le => h.unused i (Nat.le_of_succ_le le)⟩
  | allocate index bytes alignment answers =>
    obtain ⟨lt, hs⟩ := Option.ite_none_right_eq_some.mp hs
    cases hs
    have changed := h.change lt (fun r => (r.allocate bytes alignment answers).2.resource)
      (s.registered index) ((h.ledger index).next large ok).slot
      ((h.full index).allocate bytes alignment answers)
      ((allocate_registered ..).trans (h.tasks index))
    rwa [Function.update_eq_self] at changed
  | registerDestructor index task answers =>
    obtain ⟨lt, hs⟩ := Option.ite_none_right_eq_some.mp hs
    cases hs
    refine h.change lt (fun r => (r.registerDestructor task answers).resource)
      (task :: s.registered index) ((h.ledger index).next large ok).slot
      ((h.full index).registerDestructor task answers) ?_
    rw [← h.tasks index]
    exact registerDestructor_registered ..
  | release =>
    cases hs
    exact h.release ok

theorem kept_of_reach (large : sizeofPageArray ≤ pageSize)
    (h : (sharedMachine pageSize).Reach careful s) : Kept pageSize s := by
  refine h.inv (P := Kept pageSize) ?_ fun _ _ _ kept hs ok => kept.step large hs ok
  rintro s rfl
  exact ⟨fun _ => .start rfl rfl rfl rfl rfl rfl fun _ => unopened_new pageSize,
    fun _ => ⟨trivial, trivial, trivial⟩, fun _ => rfl, fun _ _ => rfl⟩

/-- In every run whose requests are careful, a release is orderly exactly if it visits every
resource for which a destructor is registered. -/
theorem orderly_iff_of_reach (large : sizeofPageArray ≤ pageSize)
    (h : (sharedMachine pageSize).Reach careful s) : Orderly pageSize s ↔ s.Complete :=
  (kept_of_reach large h).orderly_iff

instance (s : SharedRun) : Decidable s.Complete := by
  unfold Complete
  infer_instance

instance (s : SharedRun) (m : SharedMove) (s' : SharedRun) : Decidable (s.careful m s') := by
  cases m <;> unfold careful <;> infer_instance

/-- The first thread registers two destructors and the second one registers one. -/
def twoThreadsRegister : List SharedMove :=
  [.threadId, .threadId, .registerDestructor 0 ⟨1, 7⟩ ⟨65536, 0, 0⟩,
    .registerDestructor 1 ⟨2, 7⟩ ⟨69632, 0, 0⟩, .allocate 0 9000 16 ⟨0, 0, 131072⟩,
    .registerDestructor 0 ⟨3, 7⟩ ⟨0, 0, 0⟩]

theorem orderly_iff_of_reach_twoThreadsRegister :
    ∃ s, (sharedMachine 4096).run (initial 4096) twoThreadsRegister = some s ∧
      (s.effects.flatMap Effect.tasks).map DestroyTask.ptr = [3, 1, 2] ∧ Orderly 4096 s := by
  have along : (sharedMachine 4096).Along careful (initial 4096) twoThreadsRegister := by
    decide +kernel
  have seen : ((sharedMachine 4096).run (initial 4096) twoThreadsRegister).map (fun s =>
      ((s.effects.flatMap Effect.tasks).map DestroyTask.ptr, decide s.Complete)) =
        some ([3, 1, 2], true) := by decide +kernel
  obtain ⟨s, run, reach, seen⟩ := Machine.Reach.of_along_seen (.start rfl) along seen
  obtain ⟨called, complete⟩ := Prod.mk.inj seen
  exact ⟨s, run, called, (orderly_iff_of_reach (by decide) reach).mpr (of_decide_eq_true complete)⟩

/-- Threads that have an id and have not called yet. -/
theorem reach_threadIds {n : Nat} (le : n ≤ 65536) :
    (sharedMachine pageSize).Reach careful { initial pageSize with threadIds := n } := by
  induction n with
  | zero => exact .start rfl
  | succ n ih => exact (ih (Nat.le_of_succ_le le)).step (i := .threadId) (if_pos le) trivial

/-- So many threads have an id that the last one is 65408. -/
def manyThreads : SharedRun := { initial 4096 with threadIds := 65409 }

/-- The last thread registers a destructor. -/
def lastThreadRegisters : SharedRun :=
  { manyThreads with
    shared := manyThreads.shared.registerDestructor 65408 ⟨1, 7⟩ ⟨65536, 0, 0⟩
    registered := Function.update manyThreads.registered 65408 [⟨1, 7⟩] }

/-- The id 65408 makes the vector of resources so long that `for_each` takes its length for
zero, and no destructor is called. -/
theorem release_visits_none :
    (sharedMachine 4096).Reach careful lastThreadRegisters ∧
      lastThreadRegisters.registered 65408 = [⟨1, 7⟩] ∧ lastThreadRegisters.effects = [] ∧
        ¬Orderly 4096 lastThreadRegisters := by
  have ids : (sharedMachine 4096).Reach careful manyThreads := reach_threadIds (by decide)
  have call : manyThreads.step (.registerDestructor 65408 ⟨1, 7⟩ ⟨65536, 0, 0⟩) =
      some lastThreadRegisters := by
    rw [step, if_pos (show 65408 < manyThreads.threadIds by decide)]
    rfl
  have last : (sharedMachine 4096).Reach careful lastThreadRegisters := by
    refine Machine.Reach.step (M := sharedMachine 4096)
      (i := .registerDestructor 65408 ⟨1, 7⟩ ⟨65536, 0, 0⟩) ids call ?_
    decide +kernel
  have none : lastThreadRegisters.effects = [] := rfl
  refine ⟨last, rfl, none, fun orderly => ?_⟩
  have called := orderly.called
  have mem : (⟨1, 7⟩ : DestroyTask) ∈
      (List.range lastThreadRegisters.threadIds).flatMap lastThreadRegisters.registered :=
    List.mem_flatMap.mpr ⟨65408, List.mem_range.mpr (show 65408 < 65409 by decide),
      List.mem_singleton_self _⟩
  rw [← called, none] at mem
  cases mem

end SharedRun

end Fuxi.Mm
