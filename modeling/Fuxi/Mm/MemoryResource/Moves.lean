import Mathlib.Algebra.Order.Group.Multiset
import Mathlib.Tactic.Abel
import Fuxi.Lib.Holdings
import Fuxi.Mm.MemoryResource.NoCollision

/-!
# Moving resources

A move exchanges what two resources own, and the page allocators with it. It leaves the
upstreams where they are, so that an oversize block can end up in a resource that will give it
back to a stranger.
-/

namespace Fuxi.Mm

open Lib

/-- A resource with `_page_allocator` and `_upstream`; the page size is that of the page
allocator. -/
structure MovableResource (PA Up : Type*) where
  resource : ExclusiveMonotonicBufferResource
  pageAllocator : PA
  upstream : Up

/-- The page size of each page allocator, and what a new resource is set up with. -/
structure Defaults (PA Up : Type*) where
  pageSize : PA → Nat
  systemPageAllocator : PA
  newDeleteResource : Up

namespace MovableResource

open ExclusiveMonotonicBufferResource

variable {PA Up : Type*}

/-- The default constructor. -/
def new (d : Defaults PA Up) : MovableResource PA Up :=
  ⟨{ pageSize := d.pageSize d.systemPageAllocator }, d.systemPageAllocator, d.newDeleteResource⟩

/-- `operator=`, as the new values of the two sides; `resource` has all fields except the
page allocator and the upstream. -/
def moveAssign (r other : MovableResource PA Up) : MovableResource PA Up × MovableResource PA Up :=
  ({ r with pageAllocator := other.pageAllocator, resource := other.resource },
    { other with pageAllocator := r.pageAllocator, resource := r.resource })

/-- Nothing has been taken from the page allocator or the upstream. -/
def Untouched (r : MovableResource PA Up) : Prop :=
  r.resource.lastPageArray = [] ∧ r.resource.lastOversizePageArray = []

/-- The pages that the resource owns, with the page allocator that it will give them to. -/
def pages (r : MovableResource PA Up) : Multiset (PA × Nat) :=
  (r.resource.pages.map fun page => (r.pageAllocator, page) : List _)

/-- The blocks that the resource owns, with the upstream that it will give them to. -/
def blocks (r : MovableResource PA Up) : Multiset (Up × OversizePage) :=
  (r.resource.blocks.map fun block => (r.upstream, block) : List _)

end MovableResource

/-- The resources that are alive, and all pages and blocks that were ever taken and given
back, with the page allocator or the upstream that was called. -/
structure MoveState (Obj PA Up : Type*) where
  alive : Finset Obj
  object : Obj → MovableResource PA Up
  takenPages : Multiset (PA × Nat)
  returnedPages : Multiset (PA × Nat)
  takenBlocks : Multiset (Up × OversizePage)
  returnedBlocks : Multiset (Up × OversizePage)

open ExclusiveMonotonicBufferResource in
inductive ResourceMove (Obj PA Up : Type*)
  | construct (o : Obj)
  | setPageAllocator (o : Obj) (pageAllocator : PA)
  | setUpstream (o : Obj) (upstream : Up)
  | allocate (o : Obj) (bytes alignment : Nat) (answers : Answers)
  | registerDestructor (o : Obj) (task : DestroyTask) (answers : Answers)
  | moveConstruct (o other : Obj)
  | moveAssign (o other : Obj)
  | release (o : Obj)
  | destroy (o : Obj)

namespace MoveState

open ExclusiveMonotonicBufferResource MovableResource

variable {Obj PA Up : Type*}

/-- No resource is alive. -/
def initial (object : Obj → MovableResource PA Up) : MoveState Obj PA Up := ⟨∅, object, 0, 0, 0, 0⟩

variable [DecidableEq Obj]

def set (s : MoveState Obj PA Up) (o : Obj) (r : MovableResource PA Up) : MoveState Obj PA Up :=
  { s with object := Function.update s.object o r }

/-- A constructor without arguments. -/
def construct (d : Defaults PA Up) (s : MoveState Obj PA Up) (o : Obj) : MoveState Obj PA Up :=
  { s.set o (.new d) with alive := insert o s.alive }

/-- A call that takes pages and blocks. -/
def take (s : MoveState Obj PA Up) (o : Obj) (outcome : Outcome) : MoveState Obj PA Up :=
  let r := s.object o
  { s.set o { r with resource := outcome.resource } with
    takenPages := s.takenPages + (outcome.pages.map fun page => (r.pageAllocator, page) : List _)
    takenBlocks := s.takenBlocks + (outcome.blocks.map fun block => (r.upstream, block) : List _) }

/-- `operator=`. With itself a resource gets its own fields back. -/
def moveAssign (s : MoveState Obj PA Up) (o other : Obj) : MoveState Obj PA Up :=
  if o = other then s
  else
    let moved := (s.object o).moveAssign (s.object other)
    (s.set o moved.1).set other moved.2

/-- `release`. -/
def release (s : MoveState Obj PA Up) (o : Obj) : MoveState Obj PA Up :=
  let r := s.object o
  let released := r.resource.release
  { s.set o { r with resource := released.2 } with
    returnedPages := s.returnedPages +
      ((released.1.flatMap Effect.pages).map fun page => (r.pageAllocator, page) : List _)
    returnedBlocks := s.returnedBlocks +
      ((released.1.flatMap Effect.blocks).map fun block => (r.upstream, block) : List _) }

instance (r : MovableResource PA Up) : Decidable r.Untouched :=
  match h : r.resource.lastPageArray, h' : r.resource.lastOversizePageArray with
  | [], [] => .isTrue ⟨h, h'⟩
  | _ :: _, _ => .isFalse fun none => nomatch h.symm.trans none.1
  | [], _ :: _ => .isFalse fun none => nomatch h'.symm.trans none.2

/-- One call. Page allocators and upstreams are set before anything is taken, and a page has
room for an array. -/
def step (d : Defaults PA Up) (s : MoveState Obj PA Up) :
    ResourceMove Obj PA Up → Option (MoveState Obj PA Up)
  | .construct o => if o ∉ s.alive then some (s.construct d o) else none
  | .setPageAllocator o pageAllocator =>
    let r := s.object o
    if o ∈ s.alive ∧ r.Untouched ∧ sizeofPageArray ≤ d.pageSize pageAllocator then
      some (s.set o { r with
        pageAllocator := pageAllocator
        resource := { r.resource with pageSize := d.pageSize pageAllocator } })
    else none
  | .setUpstream o upstream =>
    let r := s.object o
    if o ∈ s.alive ∧ r.Untouched then some (s.set o { r with upstream := upstream }) else none
  | .allocate o bytes alignment answers =>
    if o ∈ s.alive then
      some (s.take o ((s.object o).resource.allocate bytes alignment answers).2)
    else none
  | .registerDestructor o task answers =>
    if o ∈ s.alive then
      some (s.take o ((s.object o).resource.registerDestructor task answers))
    else none
  | .moveConstruct o other =>
    if o ∉ s.alive ∧ other ∈ s.alive then some ((s.construct d o).moveAssign o other) else none
  | .moveAssign o other =>
    if o ∈ s.alive ∧ other ∈ s.alive then some (s.moveAssign o other) else none
  | .release o => if o ∈ s.alive then some (s.release o) else none
  | .destroy o =>
    if o ∈ s.alive then
      let s' := s.release o
      some { s' with alive := s'.alive.erase o }
    else none

end MoveState

/-- Any number of resources. -/
def moveMachine (Obj : Type*) {PA Up : Type*} [DecidableEq Obj] (d : Defaults PA Up) :
    Machine (MoveState Obj PA Up) (ResourceMove Obj PA Up) where
  start s := ∃ object, s = .initial object
  step := MoveState.step d

/-! ## Where pages and blocks go back to -/

namespace MoveState

open ExclusiveMonotonicBufferResource MovableResource

variable {Obj PA Up : Type*} {d : Defaults PA Up} {s s' : MoveState Obj PA Up}

/-- Everything that was taken has gone back to where it came from, once, or is owned by one
resource that will give it back there. -/
structure Home (s : MoveState Obj PA Up) : Prop where
  pages : s.takenPages = s.returnedPages + total s.alive MovableResource.pages s.object
  blocks : s.takenBlocks = s.returnedBlocks + total s.alive MovableResource.blocks s.object

theorem Home.returned_le (h : s.Home) :
    s.returnedPages ≤ s.takenPages ∧ s.returnedBlocks ≤ s.takenBlocks := by
  rw [h.pages, h.blocks]
  exact ⟨Multiset.le_add_right .., Multiset.le_add_right ..⟩

/-- When no resource is left, everything is back. -/
theorem Home.all_returned (h : s.Home) (none : s.alive = ∅) :
    s.takenPages = s.returnedPages ∧ s.takenBlocks = s.returnedBlocks := by
  rw [h.pages, h.blocks, none, total_empty, total_empty, add_zero, add_zero]
  exact ⟨rfl, rfl⟩

theorem home_initial (object : Obj → MovableResource PA Up) : (initial object).Home :=
  ⟨rfl, rfl⟩

/-- What one resource takes and gives back is what it owns more or less. -/
theorem balance {α : Type*} {taken returned owned owned' new given before after : Multiset α}
    (h : taken = returned + owned) (changed : owned' + before = owned + after)
    (moved : new + before = given + after) : taken + new = returned + given + owned' := by
  refine add_right_cancel (b := before) ?_
  calc taken + new + before
      = returned + owned + (new + before) := by rw [h, add_assoc]
    _ = returned + given + (owned + after) := by
        rw [moved]
        abel
    _ = returned + given + owned' + before := by
        rw [← changed]
        abel

theorem untouched_pages {r : MovableResource PA Up} (h : r.Untouched) : r.pages = 0 ∧ r.blocks = 0 := by
  simp [MovableResource.pages, MovableResource.blocks, ExclusiveMonotonicBufferResource.pages,
    ExclusiveMonotonicBufferResource.blocks, h.1, h.2]

variable [DecidableEq Obj] {o other : Obj}

/-- A resource that owns nothing before and after. -/
theorem Home.set (h : s.Home) (before : (s.object o).Untouched) {r : MovableResource PA Up}
    (after : r.Untouched) : (s.set o r).Home := by
  obtain ⟨pages, blocks⟩ := untouched_pages before
  obtain ⟨pages', blocks'⟩ := untouched_pages after
  exact ⟨h.pages.trans (congrArg _ (total_update_same (pages'.trans pages.symm)).symm),
    h.blocks.trans (congrArg _ (total_update_same (blocks'.trans blocks.symm)).symm)⟩

theorem Home.construct (h : s.Home) (new : o ∉ s.alive) : (s.construct d o).Home := by
  constructor
  · exact h.pages.trans (congrArg _ ((total_insert new _).trans (zero_add _)).symm)
  · exact h.blocks.trans (congrArg _ ((total_insert new _).trans (zero_add _)).symm)

theorem Home.take (h : s.Home) (mem : o ∈ s.alive) {outcome : Outcome}
    (takes : Takes (s.object o).resource outcome) : (s.take o outcome).Home := by
  constructor
  · refine (balance h.pages (total_update mem _) ?_).trans (congrArg (· + _) (add_zero _))
    simp [MovableResource.pages, takes.pages]
  · refine (balance h.blocks (total_update mem _) ?_).trans (congrArg (· + _) (add_zero _))
    simp [MovableResource.blocks, takes.blocks]

theorem Home.release (h : s.Home) (mem : o ∈ s.alive) : (s.release o).Home := by
  constructor
  · refine (add_zero _).symm.trans (balance h.pages (total_update mem _) ?_)
    rw [zero_add, ResourceRun.release_pages]
    exact (add_zero _).symm
  · refine (add_zero _).symm.trans (balance h.blocks (total_update mem _) ?_)
    rw [zero_add, ResourceRun.release_blocks]
    exact (add_zero _).symm

/-- The destructor of a resource without pages and blocks. -/
theorem Home.erase (h : s.Home) (mem : o ∈ s.alive) (empty : (s.object o).Untouched) :
    Home { s with alive := s.alive.erase o } := by
  obtain ⟨pages, blocks⟩ := untouched_pages empty
  constructor
  · rw [h.pages, ← total_erase mem, pages, zero_add]
  · rw [h.blocks, ← total_erase mem, blocks, zero_add]

/-- The two resources of a move have one upstream, or no block between them. -/
def Alike (r other : MovableResource PA Up) : Prop :=
  r.upstream = other.upstream ∨ r.resource.blocks = [] ∧ other.resource.blocks = []

theorem Home.moveAssign (h : s.Home) (mem : o ∈ s.alive) (mem' : other ∈ s.alive)
    (alike : Alike (s.object o) (s.object other)) : (s.moveAssign o other).Home := by
  unfold MoveState.moveAssign
  split_ifs with same
  · exact h
  · constructor
    · refine h.pages.trans (congrArg _ (total_exchange mem mem' same ?_).symm)
      exact add_comm ..
    · refine h.blocks.trans (congrArg _ (total_exchange mem mem' same ?_).symm)
      obtain upstream | ⟨none, none'⟩ := alike
      · simp only [MovableResource.blocks, MovableResource.moveAssign, upstream]
        exact add_comm ..
      · simp [MovableResource.blocks, MovableResource.moveAssign, none, none']

/-- Resources are moved between like ones; a new resource has the upstream `new_delete_resource`. -/
def alike (d : Defaults PA Up) (s : MoveState Obj PA Up) (m : ResourceMove Obj PA Up)
    (_ : MoveState Obj PA Up) : Prop :=
  match m with
  | .moveConstruct _ other => Alike (.new d) (s.object other)
  | .moveAssign o other => Alike (s.object o) (s.object other)
  | _ => True

theorem Home.step (h : s.Home) {m : ResourceMove Obj PA Up} (hs : s.step d m = some s')
    (side : s.alike d m s') : s'.Home := by
  cases m with
  | construct o =>
    obtain ⟨new, hs⟩ := Option.ite_none_right_eq_some.mp hs
    cases hs
    exact h.construct new
  | setPageAllocator o pageAllocator =>
    obtain ⟨⟨-, untouched, -⟩, hs⟩ := Option.ite_none_right_eq_some.mp hs
    cases hs
    exact h.set untouched untouched
  | setUpstream o upstream =>
    obtain ⟨⟨-, untouched⟩, hs⟩ := Option.ite_none_right_eq_some.mp hs
    cases hs
    exact h.set untouched untouched
  | allocate o bytes alignment answers =>
    obtain ⟨mem, hs⟩ := Option.ite_none_right_eq_some.mp hs
    cases hs
    exact h.take mem (allocate_takes ..)
  | registerDestructor o task answers =>
    obtain ⟨mem, hs⟩ := Option.ite_none_right_eq_some.mp hs
    cases hs
    exact h.take mem (registerDestructor_takes ..)
  | moveConstruct o other =>
    obtain ⟨⟨new, mem⟩, hs⟩ := Option.ite_none_right_eq_some.mp hs
    cases hs
    have ne : other ≠ o := ne_of_mem_of_not_mem mem new
    refine (h.construct new).moveAssign (Finset.mem_insert_self ..) (Finset.mem_insert_of_mem mem) ?_
    have side : Alike (.new d) (s.object other) := side
    simpa [MoveState.construct, MoveState.set, ne] using side
  | moveAssign o other =>
    obtain ⟨⟨mem, mem'⟩, hs⟩ := Option.ite_none_right_eq_some.mp hs
    cases hs
    exact h.moveAssign mem mem' side
  | release o =>
    obtain ⟨mem, hs⟩ := Option.ite_none_right_eq_some.mp hs
    cases hs
    exact h.release mem
  | destroy o =>
    obtain ⟨mem, hs⟩ := Option.ite_none_right_eq_some.mp hs
    cases hs
    refine (h.release mem).erase mem ?_
    simp [MoveState.release, MoveState.set, MovableResource.Untouched,
      ExclusiveMonotonicBufferResource.release]

/-- While resources are moved between like ones only, everything goes back to where it came
from. -/
theorem home_of_along {object : Obj → MovableResource PA Up} {moves : List (ResourceMove Obj PA Up)}
    (run : (moveMachine Obj d).run (initial object) moves = some s)
    (along : (moveMachine Obj d).Along (alike d) (initial object) moves) : s.Home :=
  along.inv (I := Home) run (home_initial object) fun _ _ _ home hs side => home.step hs side

instance [DecidableEq Up] (r other : MovableResource PA Up) : Decidable (Alike r other) := by
  unfold Alike
  infer_instance

instance [DecidableEq Up] (s : MoveState Obj PA Up) (m : ResourceMove Obj PA Up)
    (s' : MoveState Obj PA Up) : Decidable (s.alike d m s') := by
  cases m <;> unfold alike <;> infer_instance

/-- Page allocator 1 has larger pages; page allocator 0 and upstream 0 are the ones of a new
resource. -/
def twoOfEach : Defaults Nat Nat := ⟨fun pa => 4096 * (pa + 1), 0, 0⟩

/-- No resource is alive. -/
def noResource : MoveState Nat Nat Nat := initial fun _ => .new twoOfEach

/-- Both resources have upstream 1. The first one takes a page and a block, and the second
one gives them back. -/
def moveBetweenAlike : List (ResourceMove Nat Nat Nat) :=
  [.construct 0, .setPageAllocator 0 1, .setUpstream 0 1, .construct 1, .setUpstream 1 1,
    .allocate 0 100 8 ⟨8192, 0, 0⟩, .allocate 0 9000 16 ⟨0, 0, 131072⟩, .moveAssign 1 0,
    .destroy 0, .destroy 1]

/-- Page and block are back at page allocator 1 and upstream 1. -/
theorem home_of_along_moveBetweenAlike :
    ∃ s, (moveMachine Nat twoOfEach).run noResource moveBetweenAlike = some s ∧
      s.returnedPages = {(1, 8192)} ∧
        s.returnedBlocks.map (fun given => (given.1, given.2.page)) = {(1, 131072)} ∧ s.Home := by
  have along : (moveMachine Nat twoOfEach).Along (alike twoOfEach) noResource
      moveBetweenAlike := by decide +kernel
  have seen : ((moveMachine Nat twoOfEach).run noResource moveBetweenAlike).map (fun s =>
      (s.returnedPages, s.returnedBlocks.map fun given => (given.1, given.2.page))) =
        some ({(1, 8192)}, {(1, 131072)}) := by decide +kernel
  obtain ⟨s, run, seen⟩ := Option.map_eq_some_iff.mp seen
  obtain ⟨pages, blocks⟩ := Prod.mk.inj seen
  exact ⟨s, run, pages, blocks, home_of_along run along⟩

/-- A resource with upstream 1 takes a block and is moved into a new resource. -/
def moveIntoNew : List (ResourceMove Nat Nat Nat) :=
  [.construct 0, .setUpstream 0 1, .allocate 0 9000 16 ⟨0, 0, 131072⟩, .moveConstruct 1 0,
    .destroy 1, .destroy 0]

/-- Upstream 0 gets the block that upstream 1 has allocated. -/
theorem moveConstruct_strays :
    ∃ s, (moveMachine Nat twoOfEach).Reach Machine.free s ∧ s.alive = ∅ ∧
      s.takenBlocks.map Prod.fst = {1} ∧ s.returnedBlocks.map Prod.fst = {0} ∧ ¬s.Home := by
  have seen : ((moveMachine Nat twoOfEach).run noResource moveIntoNew).map (fun s =>
      (s.alive, s.takenBlocks.map Prod.fst, s.returnedBlocks.map Prod.fst)) =
        some (∅, {1}, {0}) := by decide +kernel
  obtain ⟨s, run, seen⟩ := Option.map_eq_some_iff.mp seen
  obtain ⟨none, seen⟩ := Prod.mk.inj seen
  obtain ⟨taken, returned⟩ := Prod.mk.inj seen
  refine ⟨s, .of_run (.start ⟨_, rfl⟩) run, none, taken, returned, fun home => ?_⟩
  have same := congrArg (Multiset.map Prod.fst) (home.all_returned none).2
  rw [taken, returned] at same
  exact absurd same (by decide)

end MoveState

end Fuxi.Mm
