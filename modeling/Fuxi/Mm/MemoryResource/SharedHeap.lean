import Fuxi.Mm.MemoryResource.Housed
import Fuxi.Mm.MemoryResource.NoCollision
import Fuxi.Mm.PageAllocator.Stack

/-!
# Resources that share a stack of page allocators

Any number of resources get their pages from one stack of page allocators and their blocks from
`operator new`. The stack takes back the pages of a release, and may hand them to another
resource. What different resources have handed out lies apart, although all that is known of
`operator new` is that it returns memory that has not been returned before or has been deleted.
-/

namespace Fuxi.Mm

open Lib
open ExclusiveMonotonicBufferResource

/-- A call on a resource; `block` is what `operator new` answers. -/
inductive ResourceRequest
  | allocate (bytes alignment block : Nat)
  | registerDestructor (task : DestroyTask) (block : Nat)
  | release

/-- The call with the pages that the page allocator answers. -/
def ResourceRequest.call (upcoming : Nat → Nat) : ResourceRequest → ResourceCall
  | .allocate bytes alignment block => .allocate bytes alignment ⟨upcoming 0, upcoming 1, block⟩
  | .registerDestructor task block => .registerDestructor task ⟨upcoming 0, upcoming 1, block⟩
  | .release => .release

/-- The pages that a call takes from the page allocator. -/
def ResourceRun.taken (s : ResourceRun) : ResourceCall → List Nat
  | .allocate bytes alignment answers => (s.resource.allocate bytes alignment answers).2.pages
  | .registerDestructor task answers => (s.resource.registerDestructor task answers).pages
  | .release => []

/-- A thread gives the pages of a release back, array by array. -/
def giveBack {σ : Type*} (S : Supplier σ PerType Nat) (thread : PerType) (effects : List Effect)
    (stack : σ) : Option σ :=
  effects.foldlM
    (fun stack effect =>
      match effect with
      | .deallocatePages pages => S.take thread pages stack
      | .read _ | .destruct _ | .deallocate _ => some stack)
    stack

/-- A stack of page allocators and the resources on it. -/
structure SharedHeap (Obj : Type*) (layers : List Layer) where
  stack : PageStack Nat layers
  resource : Obj → ResourceRun

structure SharedHeapMove (Obj : Type*) where
  object : Obj
  thread : PerType
  request : ResourceRequest

namespace SharedHeap

variable {Obj : Type*} {layers : List Layer}

/-- What `operator new` has returned and what has not been deleted lies apart, be it a page or a
block, and it is aligned as has been asked for. -/
structure Granted (size : Nat) (s : SharedHeap Obj layers) : Prop where
  pages_nodup : s.stack.base.live.Nodup
  pages_pos : ∀ p ∈ s.stack.base.live, 0 < p
  pages_dvd : ∀ p ∈ s.stack.base.live, size ∣ p
  pages_apart : ∀ p ∈ s.stack.base.live, ∀ o, ∀ b ∈ (s.resource o).blocks,
    Region.Apart ⟨p, size⟩ b.region
  blocks_dvd : ∀ o, ∀ b ∈ (s.resource o).blocks, b.alignment ∣ b.page
  blocks_apart : ∀ o, ((s.resource o).blocks.map OversizePage.region).Pairwise Region.Apart
  others_apart : ∀ o o', o ≠ o' → ∀ b ∈ (s.resource o).blocks, ∀ b' ∈ (s.resource o').blocks,
    b.region.Apart b'.region

variable [DecidableEq Obj]

/-- A thread calls a resource. -/
def step (s : SharedHeap Obj layers) (m : SharedHeapMove Obj) : Option (SharedHeap Obj layers) :=
  let S : Supplier (PageStack Nat layers) PerType Nat := PageStack.supplier layers
  let r := s.resource m.object
  let call := m.request.call (S.upcoming m.thread s.stack)
  let stack :=
    match m.request with
    | .release => giveBack S m.thread r.resource.release.1 s.stack
    | .allocate _ _ _ | .registerDestructor _ _ =>
      (gather (S.give m.thread 1) (r.taken call).length s.stack).map Prod.snd
  stack.map fun stack => ⟨stack, Function.update s.resource m.object (r.next call)⟩

/-- The promise is kept, threads have ids, and calls are in range and keep clear of the slips. -/
def proper (ends : PerType) (size : Nat) (s : SharedHeap Obj layers) (m : SharedHeapMove Obj)
    (s' : SharedHeap Obj layers) : Prop :=
  s'.Granted size ∧ ends.Below m.thread ∧
    match m.request with
    | .allocate bytes alignment _ => ResourceRun.InRange bytes alignment ∧
      Sound (s.resource m.object).resource bytes alignment
    | .registerDestructor task _ =>
      ResourceRun.SoundCall (s.resource m.object).resource (.registerDestructor task ⟨0, 0, 0⟩)
    | .release => True

/-- The runs of resources on a new stack with pages of a size. -/
def machine (Obj : Type*) [DecidableEq Obj] (size : Nat) (layers : List Layer) :
    Machine (SharedHeap Obj layers) (SharedHeapMove Obj) where
  start s := (∃ fresh, s.stack = .new (.setPageSize size fresh) layers) ∧
    ∀ o, s.resource o = { resource := { pageSize := bitCeil size } }
  step := step

variable [Fintype Obj]

/-- The pages of all resources. -/
def pages (s : SharedHeap Obj layers) : Multiset Nat :=
  total Finset.univ (fun r : ResourceRun => (r.pages : Multiset Nat)) s.resource

/-- All pages are accounted for. The regions that a resource has returned are aligned, lie in its
own pages and blocks, and overlap neither what any resource has returned nor the arrays that any
resource keeps. -/
structure Apart (s : SharedHeap Obj layers) : Prop where
  places : s.stack.base.live = s.pages + s.stack.inside
  own : ∀ o, ResourceRun.NoCollision (s.resource o)
  others : ∀ o o', o ≠ o' → ∀ a ∈ (s.resource o).returned,
    (∀ b ∈ (s.resource o').returned, a.region.Apart b.region) ∧
      ∀ r ∈ (s.resource o').resource.records, a.region.Apart r

end SharedHeap

/-! ## What one call takes and gives back -/

theorem registerDestructor_pages (r : ExclusiveMonotonicBufferResource) (task : DestroyTask)
    (answers : Answers) : (r.registerDestructor task answers).pages = [] ∨
      (r.registerDestructor task answers).pages = [answers.page] ∨
        (r.registerDestructor task answers).pages = [answers.additionalPage, answers.page] := by
  unfold registerDestructor
  split_ifs
  · exact Or.inl rfl
  · exact allocate_pages ..

namespace ResourceRun

/-- A call takes the next pages of the page allocator. -/
theorem taken_eq (r : ResourceRun) (request : ResourceRequest) (f : Nat → Nat) :
    (r.taken (request.call f) : Multiset Nat) =
      ↑((List.range (r.taken (request.call f)).length).map f) := by
  have few : r.taken (request.call f) = [] ∨ r.taken (request.call f) = [f 0] ∨
      r.taken (request.call f) = [f 1, f 0] := by
    cases request with
    | allocate bytes alignment block => exact allocate_pages ..
    | registerDestructor task block => exact registerDestructor_pages ..
    | release => exact Or.inl rfl
  rcases few with none | one | two
  · rw [none]
    rfl
  · rw [one]
    rfl
  · rw [two]
    exact Multiset.coe_eq_coe.mpr (List.Perm.swap ..)

end ResourceRun

namespace ResourceRun

/-- A call adds the pages that it takes; a release leaves none. -/
theorem next_pages {r : ResourceRun} {size : Nat} (h : Inv size r) (call : ResourceCall) :
    (r.next call).pages =
      match call with
      | .release => []
      | .allocate _ _ _ | .registerDestructor _ _ => r.taken call ++ r.pages := by
  cases call with
  | allocate bytes alignment answers => rfl
  | registerDestructor task answers => rfl
  | release => rw [next_release h.pages h.blocks]

theorem next_pageSize (r : ResourceRun) (call : ResourceCall) :
    (r.next call).resource.pageSize = r.resource.pageSize := by
  cases call with
  | allocate bytes alignment answers => exact (r.resource.allocate_takes ..).pageSize
  | registerDestructor task answers => exact (r.resource.registerDestructor_takes ..).pageSize
  | release => rfl

end ResourceRun

/-- The stack gets all pages of the effects. -/
theorem giveBack_spec {σ : Type*} {S : Supplier σ PerType Nat} {may : PerType → Prop}
    {Out : Multiset Nat → σ → Prop} (h : S.Contract may Out) {thread : PerType} (can : may thread)
    {out : Multiset Nat} (effects : List Effect) {stack : σ}
    (has : Out (out + ↑(effects.flatMap Effect.pages)) stack) :
    ∃ t, giveBack S thread effects stack = some t ∧ Out out t := by
  unfold giveBack
  induction effects generalizing stack with
  | nil => exact ⟨stack, rfl, by simpa using has⟩
  | cons effect effects ih =>
    rw [List.flatMap_cons, ← Multiset.coe_add, add_comm (effect.pages : Multiset Nat),
      ← add_assoc] at has
    cases effect with
    | deallocatePages pages =>
      obtain ⟨t, ret, has⟩ := h.take can pages has
      obtain ⟨u, rest, none⟩ := ih has
      exact ⟨u, by simpa [ret] using rest, none⟩
    | read array | destruct task | deallocate block =>
      obtain ⟨u, rest, none⟩ := ih (by simpa [Effect.pages] using has)
      exact ⟨u, by simpa using rest, none⟩

namespace SharedHeap

variable {Obj : Type*} {layers : List Layer} {s s' : SharedHeap Obj layers} {ends : PerType}
  {size : Nat}

/-- Different pages lie apart. -/
theorem apart_of_dvd {p q : Nat} (ne : p ≠ q) (hp : size ∣ p) (hq : size ∣ q) :
    Region.Apart ⟨p, size⟩ ⟨q, size⟩ := by
  obtain ⟨k, rfl⟩ := hp
  obtain ⟨l, rfl⟩ := hq
  have before {k l : Nat} (lt : k < l) : size * k + size ≤ size * l := by
    rw [← Nat.mul_succ]
    exact Nat.mul_le_mul_left size lt
  rcases Nat.lt_or_gt_of_ne (fun same : k = l => ne (by rw [same])) with lt | gt
  · exact Region.apart_of_le (before lt)
  · exact Region.Apart.symm (Region.apart_of_le (before gt))

/-- What is promised for all resources is promised for one of them. -/
theorem Granted.resource (h : s.Granted size) (o : Obj)
    (own : ((s.resource o).pages : Multiset Nat) ≤ s.stack.base.live) :
    Fuxi.Mm.Granted size (s.resource o).pages (s.resource o).blocks := by
  have live : ∀ p ∈ (s.resource o).pages, p ∈ s.stack.base.live := fun p mem =>
    Multiset.mem_of_le own mem
  have distinct : (s.resource o).pages.Nodup :=
    Multiset.coe_nodup.mp (Multiset.nodup_of_le own h.pages_nodup)
  refine ⟨List.pairwise_append.mpr ⟨?_, h.blocks_apart o, ?_⟩,
    fun p mem => h.pages_pos p (live p mem), fun p mem => h.pages_dvd p (live p mem),
    h.blocks_dvd o⟩
  · refine List.pairwise_map.mpr (distinct.imp_of_mem fun {p q} hp hq ne => ?_)
    exact apart_of_dvd ne (h.pages_dvd p (live p hp)) (h.pages_dvd q (live q hq))
  · intro a ha b hb
    obtain ⟨p, hp, rfl⟩ := List.mem_map.mp ha
    obtain ⟨block, hblock, rfl⟩ := List.mem_map.mp hb
    exact h.pages_apart p (live p hp) o block hblock

/-! ## Runs -/

variable [Fintype Obj]

/-- The stack knows the pages of the resources, and each resource is in order. -/
structure Inv (ends : PerType) (size : Nat) (s : SharedHeap Obj layers) : Prop where
  stack : s.stack.Has ends size s.pages
  resources : ∀ o, ResourceRun.Inv size (s.resource o)
  granted : s.Granted size

variable [DecidableEq Obj]

/-- What one resource has is part of what all have. -/
theorem pages_le (s : SharedHeap Obj layers) (o : Obj) :
    ((s.resource o).pages : Multiset Nat) ≤ s.pages := by
  rw [pages, ← total_erase (Finset.mem_univ o)]
  exact Multiset.le_add_right ..

theorem live_of_has (h : s.stack.Has ends size s.pages) (o : Obj) :
    ((s.resource o).pages : Multiset Nat) ≤ s.stack.base.live := by
  rw [h.accounts.1]
  exact (s.pages_le o).trans (Multiset.le_add_right ..)

/-- A resource gets other pages. -/
theorem pages_update (s : SharedHeap Obj layers) (o : Obj) (r : ResourceRun)
    (stack : PageStack Nat layers) :
    pages ⟨stack, Function.update s.resource o r⟩ + ↑(s.resource o).pages = s.pages + ↑r.pages :=
  total_update (Finset.mem_univ o) r

/-- The stack has given what the resource has taken, and got what it has given back. -/
theorem Inv.stack_step (h : s.Inv ends size) (few : ends.Within 65536) {m : SharedHeapMove Obj}
    (hs : s.step m = some s') (known : ends.Below m.thread) :
    s'.stack.Has ends size s'.pages := by
  obtain ⟨o, thread, request⟩ := m
  obtain ⟨stack, ret, rfl⟩ := Option.map_eq_some_iff.mp hs
  have lawful : (PageStack.supplier layers : Supplier (PageStack Nat layers) PerType Nat).Contract
      ends.Below (PageStack.Has ends size) := PageStack.contract few layers
  have resource := h.resources o
  let call := request.call ((PageStack.supplier layers).upcoming thread s.stack)
  have moved := s.pages_update o ((s.resource o).next call) stack
  have next := ResourceRun.next_pages resource call
  -- What a request takes is what the stack gives to so many calls for one page.
  have takes (served : (gather ((PageStack.supplier layers).give thread 1)
        ((s.resource o).taken call).length s.stack).map Prod.snd = some stack)
      (more : ((s.resource o).next call).pages =
        (s.resource o).taken call ++ (s.resource o).pages) :
      stack.Has ends size
        (pages ⟨stack, Function.update s.resource o ((s.resource o).next call)⟩) := by
    obtain ⟨⟨got, t⟩, given, rfl⟩ := Option.map_eq_some_iff.mp served
    obtain ⟨_, _, same, -, has⟩ := lawful.gather known h.stack ((s.resource o).taken call).length
    cases given.symm.trans same
    rw [← lawful.gather_upcoming known h.stack given, ← ResourceRun.taken_eq] at has
    rw [more, ← Multiset.coe_add, ← add_assoc] at moved
    rwa [add_right_cancel moved]
  cases request with
  | allocate bytes alignment block => exact takes ret next
  | registerDestructor task block => exact takes ret next
  | release =>
    have none : ((s.resource o).next .release).pages = [] := next
    have moved : pages ⟨stack, Function.update s.resource o ((s.resource o).next .release)⟩ +
        ↑(s.resource o).pages = s.pages + ↑((s.resource o).next .release).pages := moved
    rw [none, Multiset.coe_nil, add_zero] at moved
    have has := h.stack
    rw [← moved, resource.pages, ← ResourceRun.release_pages] at has
    obtain ⟨t, same, has⟩ := giveBack_spec lawful known _ has
    cases ret.symm.trans same
    exact has

theorem Inv.step (h : s.Inv ends size) (few : ends.Within 65536) {m : SharedHeapMove Obj}
    (hs : s.step m = some s') (ok : proper ends size s m s') : s'.Inv ends size := by
  obtain ⟨granted, known, ok⟩ := ok
  have stack := h.stack_step few hs known
  refine ⟨stack, fun o => ?_, granted⟩
  have promised := granted.resource o (live_of_has stack o)
  obtain ⟨_, -, rfl⟩ := Option.map_eq_some_iff.mp hs
  by_cases same : o = m.object
  · subst same
    simp only [Function.update_self] at promised ⊢
    refine (h.resources _).next ⟨⟨?_, ?_⟩, ?_⟩
    · rwa [ResourceRun.next_pageSize, (h.resources _).size]
    · cases request : m.request with
      | allocate bytes alignment block =>
        rw [request] at ok
        exact ok.1
      | registerDestructor task block => trivial
      | release => trivial
    · cases request : m.request with
      | allocate bytes alignment block =>
        rw [request] at ok
        exact ok.2
      | registerDestructor task block =>
        rw [request] at ok
        exact ok
      | release => trivial
  · simp only [Function.update_of_ne same]
    exact h.resources o

/-- The pages and blocks of different resources lie apart. -/
theorem Inv.memory_apart (h : s.Inv ends size) {o o' : Obj} (ne : o ≠ o') :
    ∀ a ∈ memory size (s.resource o).pages (s.resource o).blocks,
      ∀ b ∈ memory size (s.resource o').pages (s.resource o').blocks, a.Apart b := by
  have both : ((s.resource o).pages : Multiset Nat) + ↑(s.resource o').pages ≤
      s.stack.base.live := by
    have mem : o' ∈ Finset.univ.erase o := Finset.mem_erase.mpr ⟨ne.symm, Finset.mem_univ o'⟩
    refine le_trans ?_ (h.stack.accounts.1 ▸ Multiset.le_add_right s.pages _)
    rw [pages, ← total_erase (Finset.mem_univ o), ← total_erase mem]
    exact add_le_add_right (Multiset.le_add_right ..) _
  have distinct := (Multiset.nodup_add.mp (Multiset.nodup_of_le both h.granted.pages_nodup)).2.2
  intro a ha b hb
  rcases List.mem_append.mp ha with ha | ha <;> obtain ⟨p, hp, rfl⟩ := List.mem_map.mp ha <;>
    rcases List.mem_append.mp hb with hb | hb <;> obtain ⟨q, hq, rfl⟩ := List.mem_map.mp hb
  · have live := Multiset.mem_of_le (live_of_has h.stack o) hp
    have live' := Multiset.mem_of_le (live_of_has h.stack o') hq
    refine apart_of_dvd (fun same => ?_) (h.granted.pages_dvd p live) (h.granted.pages_dvd q live')
    exact Multiset.disjoint_left.mp distinct hp (same ▸ hq)
  · exact h.granted.pages_apart p (Multiset.mem_of_le (live_of_has h.stack o) hp) o' q hq
  · exact (h.granted.pages_apart q (Multiset.mem_of_le (live_of_has h.stack o') hq) o p hp).symm
  · exact h.granted.others_apart o o' ne p hp q hq

theorem Inv.apart (h : s.Inv ends size) : s.Apart := by
  have inside : ∀ o, ∀ u ∈ (s.resource o).resource.records ++
      (s.resource o).returned.map Returned.region,
      ∃ m ∈ memory size (s.resource o).pages (s.resource o).blocks, u.Inside m := by
    intro o u mem
    have own := h.resources o
    obtain ⟨m, hm, hu⟩ := own.tidy.packed.inside u mem
    rw [own.size, ← own.pages, ← own.blocks] at hm
    exact ⟨m, hm, hu⟩
  refine ⟨h.stack.accounts.1, fun o => (h.resources o).noCollision, fun o o' ne a ha => ?_⟩
  obtain ⟨m, hm, am⟩ := inside o _ (List.mem_append_right _ (List.mem_map_of_mem ha))
  constructor
  · intro b hb
    obtain ⟨m', hm', bm⟩ := inside o' _ (List.mem_append_right _ (List.mem_map_of_mem hb))
    exact (h.memory_apart ne m hm m' hm').mono am bm
  · intro r hr
    obtain ⟨m', hm', rm⟩ := inside o' r (List.mem_append_left _ hr)
    exact (h.memory_apart ne m hm m' hm').mono am rm

theorem inv_start (large : sizeofPageArray ≤ bitCeil size) (small : bitCeil size < 2 ^ 64)
    (start : (machine Obj size layers).start s) : s.Inv ends (bitCeil size) := by
  obtain ⟨⟨fresh, new⟩, unused⟩ := start
  have none : s.pages = 0 := by
    refine Finset.sum_eq_zero fun o _ => ?_
    rw [unused]
    rfl
  refine ⟨?_, fun o => ?_, ?_⟩
  · rw [none, new]
    exact PageStack.has_new fresh layers
  · rw [unused]
    exact .start (bitCeil_eq_two_pow size) large small (le_max_of_le_right (by decide))
  · have empty : s.stack.base.live = 0 := by
      rw [new, PageStack.base_new]
      rfl
    refine ⟨?_, ?_, ?_, ?_, ?_, ?_, ?_⟩ <;> simp [empty, unused]

/-- In every run whose calls keep clear of the slips, resources on one stack do not collide. -/
theorem heapApart (few : ends.Within 65536) (large : sizeofPageArray ≤ bitCeil size)
    (small : bitCeil size < 2 ^ 64)
    (reach : (machine Obj size layers).Reach (proper ends (bitCeil size)) s) : s.Apart := by
  have inv : s.Inv ends (bitCeil size) :=
    reach.inv (fun _ start => inv_start large small start) fun _ _ _ inv hs ok =>
      inv.step few hs ok
  exact inv.apart

instance (s : SharedHeap Obj layers) : Decidable (s.Granted size) :=
  decidable_of_iff
    (s.stack.base.live.Nodup ∧ (∀ p ∈ s.stack.base.live, 0 < p) ∧
      (∀ p ∈ s.stack.base.live, size ∣ p) ∧
      (∀ p ∈ s.stack.base.live, ∀ o, ∀ b ∈ (s.resource o).blocks,
        Region.Apart ⟨p, size⟩ b.region) ∧
      (∀ o, ∀ b ∈ (s.resource o).blocks, b.alignment ∣ b.page) ∧
      (∀ o, ((s.resource o).blocks.map OversizePage.region).Pairwise Region.Apart) ∧
      ∀ o o', o ≠ o' → ∀ b ∈ (s.resource o).blocks, ∀ b' ∈ (s.resource o').blocks,
        b.region.Apart b'.region)
    ⟨fun ⟨nodup, pos, dvd, apart, aligned, blocks, others⟩ =>
        ⟨nodup, pos, dvd, apart, aligned, blocks, others⟩,
      fun ⟨nodup, pos, dvd, apart, aligned, blocks, others⟩ =>
        ⟨nodup, pos, dvd, apart, aligned, blocks, others⟩⟩

instance (s : SharedHeap Obj layers) (m : SharedHeapMove Obj) (s' : SharedHeap Obj layers) :
    Decidable (proper ends size s m s') :=
  match m with
  | ⟨_, thread, .release⟩ =>
    inferInstanceAs (Decidable (s'.Granted size ∧ ends.Below thread ∧ True))
  | ⟨o, thread, .allocate bytes alignment _⟩ =>
    inferInstanceAs (Decidable (s'.Granted size ∧ ends.Below thread ∧
      (alignment.isPowerOfTwo ∧ bytes + alignment < 2 ^ 48) ∧
        Sound (s.resource o).resource bytes alignment))
  | ⟨o, thread, .registerDestructor task _⟩ =>
    inferInstanceAs (Decidable (s'.Granted size ∧ ends.Below thread ∧
      ResourceRun.SoundCall (s.resource o).resource (.registerDestructor task ⟨0, 0, 0⟩)))

/-- Two resources take pages, the first one is released, and the second one gets its page. -/
def pagesInTurn : List (SharedHeapMove Bool) :=
  [⟨true, ⟨0, 0⟩, .allocate 100 8 0⟩, ⟨false, ⟨0, 1⟩, .allocate 3000 16 0⟩,
    ⟨true, ⟨0, 1⟩, .allocate 5000 16 1048576⟩, ⟨true, ⟨0, 0⟩, .release⟩,
    ⟨false, ⟨0, 1⟩, .allocate 2000 16 0⟩]

/-- A new heap with a cache of two pages, and two resources on it. -/
def heapOfTwo : SharedHeap Bool (pageHeap 2) :=
  ⟨.new (.setPageSize 4096 (4096 * · + 65536)) (pageHeap 2),
    fun _ => { resource := { pageSize := bitCeil 4096 } }⟩

theorem heapApart_pagesInTurn :
    ∃ s, (machine Bool 4096 (pageHeap 2)).run heapOfTwo pagesInTurn = some s ∧
      (s.resource true).pages = [] ∧ (s.resource false).pages = [65536, 69632] ∧ s.Apart := by
  have along : (machine Bool 4096 (pageHeap 2)).Along (proper ⟨2, 2⟩ 4096) heapOfTwo
      pagesInTurn := by decide +kernel
  have seen : ((machine Bool 4096 (pageHeap 2)).run heapOfTwo pagesInTurn).map (fun s =>
      ((s.resource true).pages, (s.resource false).pages)) = some ([], [65536, 69632]) := by
    decide +kernel
  have size : bitCeil 4096 = 4096 := by decide +kernel
  obtain ⟨s, run, reach, seen⟩ := Machine.Reach.of_along_seen
    (.start (M := machine Bool 4096 (pageHeap 2)) ⟨⟨_, rfl⟩, fun _ => rfl⟩) along seen
  obtain ⟨first, second⟩ := Prod.mk.inj seen
  rw [← size] at reach
  exact ⟨s, run, first, second,
    heapApart (by decide) (by decide +kernel) (by decide +kernel) reach⟩

end SharedHeap

end Fuxi.Mm
